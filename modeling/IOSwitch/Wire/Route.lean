import IOSwitch.Daemon.Script
import IOSwitch.Wire.Delivery

/-!
# `Wire.Route` — from the sender's devices to the receiver's

The calls of the main thread accept the peers, receive their first messages and give them listeners with the
devices they asked for (`Net.lobby_did`, `Net.served_new`); with them every step of the net keeps its invariant.
`Net.routes_end_to_end` reads the routing off the invariant, for every run.
-/

namespace IOSwitch

open Lib Server

namespace Net

variable {cs : List SenderConfig} {s s' : Net}

/-! ## Calls of the main thread -/

theorem greeted_get (s : Net) (j : Nat) :
    s.lobby.greeted[j]? = (s.peers[j]?).map fun p => decide (0 < p.received) := by
  rw [lobby, List.getElem?_map]

theorem Inv.lt_of_peer (hinv : Inv cs s) {j : Nat} {p : Peer} (hp : s.peers[j]? = some p) : j < cs.length := by
  rw [← hinv.configs, List.length_map]
  exact (List.getElem?_eq_some_iff.mp hp).1

/-- A peer whose connection has a listener was accepted and heard. -/
theorem Inv.of_socket (hinv : Inv cs s) {j : Nat} {p : Peer} (hp : s.peers[j]? = some p)
    (hj : (j : Int) ∈ s.args.map (·.sockfd)) : p.accepted = true ∧ 0 < p.received := by
  obtain ⟨a, ha, hsock⟩ := List.mem_map.mp hj
  obtain ⟨d, hd, rfl⟩ := List.mem_map.mp ha
  obtain ⟨m, hm⟩ := List.getElem?_of_mem hd
  obtain ⟨i, q, g, hs⟩ := hinv.served m d hm
  obtain rfl : i = j := Int.natCast_inj.mp (hs.sockfd.symm.trans hsock)
  obtain rfl : p = q := Option.some.inj (hp.symm.trans hs.peer)
  exact ⟨hs.accepted, hs.greeted⟩

/-- What a call of the main thread leaves of the peers: those that have a listener as they were. -/
structure PeersKept (s : Net) (ps : List Peer) : Prop where
  configs  : ps.map (·.config) = s.peers.map (·.config)
  peers    : ∀ p ∈ ps, PeerInv p
  served   : ∀ (j : Nat) (p : Peer), s.peers[j]? = some p → (j : Int) ∈ s.args.map (·.sockfd) → ps[j]? = some p
  unserved : ∀ (j : Nat) (p : Peer), ps[j]? = some p → (j : Int) ∉ s.args.map (·.sockfd) → p.received ≤ 1

theorem Inv.peersKept (hinv : Inv cs s) : PeersKept s s.peers :=
  ⟨rfl, hinv.peers, fun _ _ hp _ => hp, hinv.unserved⟩

/-- One peer without a listener has changed. -/
theorem Inv.peersKept_set (hinv : Inv cs s) {j : Nat} {p p' : Peer} (hp : s.peers[j]? = some p)
    (hnot : (j : Int) ∉ s.args.map (·.sockfd)) (hconfig : p'.config = p.config) (hpi : PeerInv p')
    (hone : p'.received ≤ 1) : PeersKept s (s.peers.set j p') where
  configs := map_set_same hp hconfig
  peers q hq := by
    rcases List.mem_or_eq_of_mem_set hq with hq | rfl
    · exact hinv.peers q hq
    · exact hpi
  served i q hq hi := by
    have hij : j ≠ i := by rintro rfl; exact hnot hi
    rw [List.getElem?_set_ne hij]
    exact hq
  unserved i q hq hi := by
    rcases getElem?_set_cases hq with ⟨rfl, rfl⟩ | ⟨-, hq⟩
    · exact hone
    · exact hinv.unserved i q hq hi

/-- A peer that is accepted now has no listener. -/
theorem Inv.not_socket_of_fresh (hinv : Inv cs s) {j : Nat} {p : Peer} (hp : s.peers[j]? = some p)
    (hfresh : p.received = 0) : (j : Int) ∉ s.args.map (·.sockfd) := by
  intro hj
  have hpos := (hinv.of_socket hp hj).2
  omega

/-- The peer whose first message the main thread is about to receive has not been heard. -/
theorem Inv.fresh_of_pre (hinv : Inv cs s) {j : Nat} {p : Peer} (hp : s.peers[j]? = some p)
    (hpre : (lobbyContract cs).pre s.lobby (.recvConn j)) : p.received = 0 := by
  have hgreeted := hpre j rfl (hinv.lt_of_peer hp)
  rw [greeted_get, hp] at hgreeted
  have hnot : ¬ 0 < p.received := of_decide_eq_false (Option.some.inj hgreeted)
  omega

theorem accept_eq {fd : Int} {ps : List Peer} (h : deliver s.daemon s.peers (.main (.did .accept fd)) = some ps) :
    (peerAt s.peers fd = none ∧ ps = s.peers) ∨ ∃ (j : Nat) (p : Peer), fd = j ∧ s.peers[j]? = some p ∧
      p.accepted = false ∧ ps = s.peers.set j { p with accepted := true } := by
  simp only [deliver] at h
  split at h
  · next p hp =>
    obtain ⟨j, rfl, hj⟩ := peerAt_eq hp
    split at h
    · next hacc =>
      exact Or.inr ⟨j, p, rfl, hj, Bool.eq_false_iff.mpr hacc.2, (Option.some.inj h).symm⟩
    · cases h
  · next hp => exact Or.inl ⟨hp, (Option.some.inj h).symm⟩

theorem recvConn_eq {fd : Int} {r : ReadResult NewConnection.size} {ps : List Peer}
    (h : deliver s.daemon s.peers (.main (.did (.recvConn fd) r)) = some ps) :
    (r.ret < 0 ∧ ps = s.peers) ∨
    (0 ≤ r.ret ∧ ∃ (j : Nat) (p : Peer), fd = j ∧ s.peers[j]? = some p ∧ p.accepted = true ∧
      p.sent[p.received]? = some r.bytes ∧ ps = s.peers.set j { p with received := p.received + 1 }) ∨
    (0 ≤ r.ret ∧ r.bytes.length = NewConnection.size ∧ NewConnection.typeAt r.bytes ≠ .inputStream ∧
      ps = s.peers) := by
  simp only [deliver] at h
  split at h
  · exact Or.inl ⟨‹_›, (Option.some.inj h).symm⟩
  · next hr =>
    split at h
    · exact Or.inr (Or.inl ⟨Int.not_lt.mp hr, receive_eq h⟩)
    · split at h
      · next hother => exact Or.inr (Or.inr ⟨Int.not_lt.mp hr, hother.1, hother.2, (Option.some.inj h).symm⟩)
      · cases h

/-- The first message of a peer is its `hello`. -/
theorem first_message {p : Peer} {msg : Bytes} (hpi : PeerInv p) (hfresh : p.received = 0)
    (hnext : p.sent[p.received]? = some msg) : msg = p.config.hello := by
  rcases sound_of_ok hpi.ok with hnone | hforwards
  · rw [hnone] at hnext
    cases hnext
  · rw [hforwards.framed, hfresh] at hnext
    exact (Option.some.inj hnext).symm

theorem peers_main {c : ServerCall} {r : c.Resp} {ps : List Peer} (hinv : Inv cs s)
    (h : deliver s.daemon s.peers (.main (.did c r)) = some ps) (hpre : (lobbyContract cs).pre s.lobby c) :
    PeersKept s ps := by
  cases c with
  | accept =>
      rcases accept_eq h with ⟨-, rfl⟩ | ⟨j, p, -, hp, hacc, rfl⟩
      · exact hinv.peersKept
      · have hpi := hinv.peers p (List.mem_of_getElem? hp)
        have hfresh := hpi.fresh hacc
        have hpi' : PeerInv { p with accepted := true } := ⟨hpi.ok, fun hf => absurd hf.symm Bool.false_ne_true, hpi.bound⟩
        exact hinv.peersKept_set hp (hinv.not_socket_of_fresh hp hfresh) rfl hpi' (by show p.received ≤ 1; omega)
  | recvConn fd =>
      rcases recvConn_eq h with ⟨-, rfl⟩ | ⟨-, j, p, rfl, hp, hacc, hnext, rfl⟩ | ⟨-, -, -, rfl⟩
      · exact hinv.peersKept
      · have hpi := hinv.peers p (List.mem_of_getElem? hp)
        -- the main thread receives the first message of a connection only
        have hfresh := hinv.fresh_of_pre hp hpre
        have hpi' : PeerInv { p with received := p.received + 1 } :=
          ⟨hpi.ok, fun hf => absurd (hf.symm.trans hacc) Bool.false_ne_true, (List.getElem?_eq_some_iff.mp hnext).1⟩
        exact hinv.peersKept_set hp (hinv.not_socket_of_fresh hp hfresh) rfl hpi' (by show p.received + 1 ≤ 1; omega)
      · exact hinv.peersKept
  | openUinput =>
      simp only [deliver] at h
      split at h
      · obtain rfl := Option.some.inj h
        exact hinv.peersKept
      · cases h
  | _ =>
      obtain rfl := Option.some.inj h
      exact hinv.peersKept

/-- Devices that belong to listeners are left alone, and new ones are not written to. -/
theorem devices_main {c : ServerCall} {r : c.Resp} {sh : Shared} (hinv : Inv cs s)
    (h : s.daemon.serverEffect c r = some sh) (hpre : (lobbyContract cs).pre s.lobby c) :
    (∀ k < owned s.args, sh.uinput[k]? = s.daemon.uinput[k]?) ∧ DevicesInv (owned s.args) sh.uinput := by
  obtain ⟨hle, hun⟩ := hinv.devices
  have hmodify : ∀ {fd : Int} {f : UInputDev → UInputDev}, owned s.args ≤ fd.toNat → (∀ u, (f u).log = u.log) →
      (∀ k < owned s.args, (s.daemon.uinput.modify fd.toNat f)[k]? = s.daemon.uinput[k]?) ∧
      DevicesInv (owned s.args) (s.daemon.uinput.modify fd.toNat f) := by
    intro fd f hfd hlog
    refine ⟨fun k hk => ?_, by rw [List.length_modify]; exact hle, fun k u hk hu => ?_⟩
    · have hne : ¬ fd.toNat = k := by omega
      rw [List.getElem?_modify]
      cases s.daemon.uinput[k]? with
      | none => rfl
      | some u => simp [hne]
    · rw [List.getElem?_modify] at hu
      obtain ⟨v, hv, rfl⟩ := Option.map_eq_some_iff.mp hu
      split
      · rw [hlog]; exact hun k v hk hv
      · exact hun k v hk hv
  cases c with
  | openUinput =>
      rcases Shared.openUinput_eq h with ⟨-, rfl⟩ | ⟨-, rfl⟩
      · exact ⟨fun _ _ => rfl, hle, hun⟩
      · refine ⟨fun k hk => List.getElem?_append_left (by omega), ?_, fun k u hk hu => ?_⟩
        · rw [List.length_append]; omega
        · rcases getElem?_append_cases hu with hu | ⟨-, hu⟩
          · exact hun k u hk hu
          · rw [List.mem_singleton.mp (List.mem_of_getElem? hu)]
  | devSetup fd n =>
      obtain rfl := Option.some.inj h
      rw [Shared.onDevice_of_nonneg hpre.1]
      exact hmodify hpre.2 fun _ => rfl
  | devCreate fd =>
      obtain rfl := Option.some.inj h
      rw [Shared.onDevice_of_nonneg hpre.1]
      exact hmodify hpre.2 fun _ => rfl
  | _ =>
      rw [(Shared.serverEffect_frame h).uinput id]
      exact ⟨fun _ _ => rfl, hle, hun⟩

/-- **What the main thread sees of its own call** is what its contract says. -/
theorem lobby_did {c : ServerCall} {r : c.Resp} (hinv : Inv cs s) (h : Step s (.daemon (.main (.did c r))) s')
    (hpre : (lobbyContract cs).pre s.lobby c) : (lobbyContract cs).post s.lobby c r s'.lobby := by
  obtain ⟨hd, hdel⟩ := step_daemon h
  have hsh := Daemon.shared_call hd
  cases c with
  | accept =>
      have hsame : s'.args = s.args := args_call hd (by rintro _ _ ⟨⟩)
      rcases accept_eq hdel with ⟨hnone, hpeers⟩ | ⟨j, p, rfl, hp, hacc, hpeers⟩
      · refine ⟨lobby_eq (by rw [hpeers]) hsame (by rw [(Shared.serverEffect_frame hsh).uinput id]), ?_⟩
        intro j hj hlt
        rw [show r = (j : Int) from hj, peerAt_natCast] at hnone
        have hlen : s.peers.length = cs.length := by rw [← hinv.configs, List.length_map]
        exact absurd (List.getElem?_eq_none_iff.mp hnone) (by omega)
      · refine ⟨lobby_eq (by rw [hpeers]; exact map_set_same hp rfl) hsame
          (by rw [(Shared.serverEffect_frame hsh).uinput id]), ?_⟩
        intro i hi _
        obtain rfl : j = i := Int.natCast_inj.mp hi
        have hfresh := (hinv.peers p (List.mem_of_getElem? hp)).fresh hacc
        refine ⟨?_, hinv.not_socket_of_fresh hp hfresh⟩
        rw [greeted_get, hp, Option.map_some, hfresh]
        rfl
  | recvConn fd =>
      have hsame : s'.args = s.args := args_call hd (by rintro _ _ ⟨⟩)
      have hu : s'.daemon.uinput = s.daemon.uinput := (Shared.serverEffect_frame hsh).uinput id
      rcases recvConn_eq hdel with ⟨hneg, hpeers⟩ | ⟨hpos, j, p, rfl, hp, -, hnext, hpeers⟩ | ⟨hpos, hlen, htype, hpeers⟩
      · exact Or.inl ⟨hneg, lobby_eq (by rw [hpeers]) hsame (by rw [hu])⟩
      · have hpi := hinv.peers p (List.mem_of_getElem? hp)
        have hconfig : cs[j]? = some p.config := by rw [← hinv.configs, List.getElem?_map, hp]; rfl
        refine Or.inr (Or.inl ⟨hpos, j, p.config, rfl, hconfig, first_message hpi (hinv.fresh_of_pre hp hpre) hnext, ?_⟩)
        rw [lobby, hpeers, hsame, hu, List.map_set]
        rfl
      · exact Or.inr (Or.inr ⟨hpos, hlen, htype, lobby_eq (by rw [hpeers]) hsame (by rw [hu])⟩)
  | openUinput =>
      have hsame : s'.args = s.args := args_call hd (by rintro _ _ ⟨⟩)
      simp only [deliver] at hdel
      split at hdel
      · next hpos =>
        have hpeers := Option.some.inj hdel
        rcases Shared.openUinput_eq hsh with ⟨hneg, -⟩ | ⟨hfd, hu⟩
        · exact absurd hneg (Int.not_lt.mpr hpos)
        · refine ⟨by rw [hfd, lobby, List.length_map], ?_⟩
          rw [lobby, ← hpeers, hsame, hu, List.map_append]
          rfl
      · cases hdel
  | devSetup fd n =>
      have hsame : s'.args = s.args := args_call hd (by rintro _ _ ⟨⟩)
      show s'.lobby = _
      rw [lobby, ← Option.some.inj hdel, hsame, ← Option.some.inj hsh, Shared.onDevice_of_nonneg hpre.1]
      exact congrArg (fun devs => Lobby.mk _ _ devs _) (map_modify _ _ _ _ _ fun _ => rfl)
  | devCreate fd =>
      have hsame : s'.args = s.args := args_call hd (by rintro _ _ ⟨⟩)
      show s'.lobby = _
      rw [lobby, ← Option.some.inj hdel, hsame, ← Option.some.inj hsh, Shared.onDevice_of_nonneg hpre.1]
      exact congrArg (fun devs => Lobby.mk _ _ devs _) (map_modify _ _ _ _ _ fun _ => rfl)
  | createListener slot args =>
      show s'.lobby = _
      rw [lobby, ← Option.some.inj hdel, args_step hd, ← Option.some.inj hsh, List.map_append, owned_append]
      rfl
  | wild => exact r.elim
  | _ =>
      have hsame : s'.args = s.args := args_call hd (by rintro _ _ ⟨⟩)
      exact lobby_eq (by rw [Option.some.inj hdel]) hsame (by rw [(Shared.serverEffect_frame hsh).uinput id])

/-- The listener just created serves its peer. -/
theorem served_new {slot : Nat} {args : ListenerArgs} (hinv : Inv cs s) (hadm : Admits cs s.lobby slot args) :
    ∃ (j : Nat) (p : Peer), s.peers[j]? = some p ∧ (j : Int) ∉ s.args.map (·.sockfd) ∧ args.sockfd = j ∧
      owned s.args + args.devices.length = s.daemon.uinput.length ∧
      ∀ s' : Net, s'.peers = s.peers → s'.daemon.uinput = s.daemon.uinput → s'.args = s.args ++ [args] →
        Served s' s.args.length ⟨args, slot, Wire.listener⟩ j p [] := by
  obtain ⟨j, c, hc, hgreeted, hnot, hargs, before, hdevs, hbefore⟩ := hadm
  rw [greeted_get] at hgreeted
  obtain ⟨p, hp, hpos⟩ := Option.map_eq_some_iff.mp hgreeted
  have hpos : 0 < p.received := of_decide_eq_true hpos
  have hconfig : p.config = c := by
    rw [← hinv.configs, List.getElem?_map, hp] at hc
    exact Option.some.inj hc
  subst hconfig
  have hlen : args.devices.length = p.config.count := by
    rw [hargs, argsFor, List.length_map, List.length_range]
  have hcount : owned s.args + p.config.count = s.daemon.uinput.length := by
    have hl := congrArg List.length hdevs
    rw [lobby, List.length_map, List.length_append, List.length_map, List.length_range, hbefore] at hl
    exact hl.symm
  refine ⟨j, p, hp, hnot, by rw [hargs]; rfl, by rw [hlen]; exact hcount, ?_⟩
  intro s' hpeers huinput happ
  have hbase : s'.base s.args.length = owned s.args := by
    rw [base, happ, List.take_left]
  have hpi := hinv.peers p (List.mem_of_getElem? hp)
  constructor
  · rw [hpeers]; exact hp
  · by_contra hacc
    rw [hpi.fresh (Bool.eq_false_iff.mpr hacc)] at hpos
    exact Nat.lt_irrefl 0 hpos
  · exact hpos
  · rw [hbase]
    exact hargs.trans (by rw [hargs]; rfl)
  · exact Wire.listener_ok
  · -- only the first message has been received
    have hone := hinv.unserved j p hp hnot
    have hlen1 : (p.sent.take p.received).length ≤ 1 := by rw [List.length_take]; omega
    rw [Peer.receivedPackets, List.drop_eq_nil_of_le hlen1]
    rfl
  · intro i hi
    have hlt : owned s.args + i < s.daemon.uinput.length := by omega
    have hget : s.lobby.devices[owned s.args + i]? = some (deviceName (p.config.name i), true) := by
      rw [hdevs, show owned s.args = before.length from hbefore.symm, List.getElem?_append_right (Nat.le_add_right _ _),
        Nat.add_sub_cancel_left, List.getElem?_map, List.getElem?_range hi]
      rfl
    rw [lobby, List.getElem?_map, List.getElem?_eq_getElem hlt] at hget
    obtain ⟨hname, hcreated⟩ := Prod.mk.inj (Option.some.inj hget)
    refine ⟨_, by rw [hbase, huinput]; exact List.getElem?_eq_getElem hlt, hname, hcreated, ?_⟩
    exact hinv.devices.2 _ _ (Nat.le_add_right _ _) (List.getElem?_eq_getElem hlt)

/-- The listeners from before a call of the main thread go on serving their peers, and the main thread keeps its
    discipline. -/
theorem served_main {c : ServerCall} {r : c.Resp} (hinv : Inv cs s) (h : Step s (.daemon (.main (.did c r))) s')
    (hpre : (lobbyContract cs).pre s.lobby c) :
    s'.daemon.main.Ok (lobbyContract cs) AllOwned s'.lobby ∧
      ∀ (m : Nat) (d : ListenerThread), s.daemon.listeners[m]? = some d → ∃ j p g, Served s' m d j p g := by
  obtain ⟨hd, hdel⟩ := step_daemon h
  have hkept := peers_main hinv hdel hpre
  obtain ⟨hold, -⟩ := devices_main hinv (Daemon.shared_call hd) hpre
  constructor
  · refine Daemon.mainOk_step hd hinv.main (fun l hl => by cases hl) (fun c r hcall hp => ?_) fun hne => absurd rfl (hne _)
    cases hcall
    exact lobby_did hinv h hp
  · intro m d hget
    obtain ⟨j, p, g, hs⟩ := hinv.served m d hget
    have hsock : (j : Int) ∈ s.args.map (·.sockfd) := by
      rw [← hs.sockfd]
      exact List.mem_map_of_mem (List.mem_of_getElem? (args_get hget))
    refine ⟨j, p, g, hs.frame (hkept.served j p hs.peer hsock) rfl hs.accepted rfl rfl (base_step hd hget) ?_⟩
    intro i hi
    exact hold _ (base_lt_owned hget (by rw [hs.devices_length]; exact hi))

/-- **Step lemma**, for the creation of a listener. -/
theorem inv_create {slot : Nat} {args : ListenerArgs} {r : Unit} (hinv : Inv cs s)
    (h : Step s (.daemon (.main (.did (.createListener slot args) r))) s') : Inv cs s' := by
  obtain ⟨hd, hdel⟩ := step_daemon h
  obtain ⟨t, sh, hf, -, -⟩ := Daemon.step_main hd
  have hpre := hinv.main.pre hf
  obtain ⟨hmain, hserved⟩ := served_main hinv h hpre
  obtain ⟨j, p, hp, hnot, hsock, hall, hs⟩ := served_new hinv hpre
  have hpeers : s'.peers = s.peers := (Option.some.inj hdel).symm
  have huinput : s'.daemon.uinput = s.daemon.uinput := (Shared.serverEffect_frame (Daemon.shared_call hd)).uinput id
  have happ : s'.args = s.args ++ [args] := args_step hd
  refine ⟨by rw [hpeers]; exact hinv.configs, by rw [hpeers]; exact hinv.peers, hmain, ?_, ?_, ?_, ?_⟩
  · intro m d' hd'
    rcases Daemon.listener_cases hd hd' with ⟨hget, -⟩ | ⟨a, d, heq, -⟩ | ⟨hm, slot', args', heq, rfl⟩
    · exact hserved m d' hget
    · cases heq
    · cases heq
      rw [hm, show s.daemon.listeners.length = s.args.length from (List.length_map _).symm]
      exact ⟨j, p, [], hs s' hpeers huinput happ⟩
  · -- the peer had no listener, so its descriptor is a new one
    rw [happ, List.map_append, List.map_singleton, hsock]
    refine List.nodup_append.mpr ⟨hinv.sockets, List.pairwise_singleton _ _, ?_⟩
    rintro a ha b hb rfl
    rw [List.mem_singleton.mp hb] at ha
    exact hnot ha
  · rw [hpeers, happ, List.map_append]
    exact fun i q hq hi => hinv.unserved i q hq fun hmem => hi (List.mem_append_left _ hmem)
  · have hone : owned [args] = args.devices.length := by simp [owned]
    rw [happ, huinput, owned_append, hone]
    exact ⟨hall.le, fun k u hk hu => hinv.devices.2 k u (by omega) hu⟩

/-- **Step lemma**, for the other calls of the main thread. -/
theorem inv_main {c : ServerCall} {r : c.Resp} (hc : ∀ slot args, c ≠ .createListener slot args) (hinv : Inv cs s)
    (h : Step s (.daemon (.main (.did c r))) s') : Inv cs s' := by
  obtain ⟨hd, hdel⟩ := step_daemon h
  obtain ⟨t, sh, hf, -, -⟩ := Daemon.step_main hd
  have hpre := hinv.main.pre hf
  have hkept := peers_main hinv hdel hpre
  obtain ⟨hmain, hserved⟩ := served_main hinv h hpre
  have hsame : s'.args = s.args := args_call hd hc
  refine ⟨hkept.configs.trans hinv.configs, hkept.peers, hmain, ?_, ?_, ?_, ?_⟩
  · intro m d' hd'
    rcases Daemon.listener_cases hd hd' with ⟨hget, -⟩ | ⟨a, d, heq, -⟩ | ⟨-, slot, args, heq, -⟩
    · exact hserved m d' hget
    · cases heq
    · cases heq
      exact absurd rfl (hc slot args)
  · rw [hsame]; exact hinv.sockets
  · rw [hsame]; exact hkept.unserved
  · rw [hsame]; exact (devices_main hinv (Daemon.shared_call hd) hpre).2

/-! ## Whole runs -/

variable {e : NetEvent} {tr : List NetEvent}

/-- **Step lemma.** -/
theorem inv_step (hinv : Inv cs s) (h : Step s e s') : Inv cs s' := by
  cases e with
  | peer j a => exact inv_peer hinv h
  | daemon e =>
      cases e with
      | main a =>
          cases a with
          | jump l => exact inv_quiet ⟨(by rintro _ _ ⟨⟩), (by rintro _ _ _ ⟨⟩)⟩ hinv h
          | did c r =>
              cases c with
              | createListener slot args => exact inv_create hinv h
              | _ => exact inv_main (by rintro _ _ ⟨⟩) hinv h
      | sender i a => exact inv_quiet ⟨(by rintro _ _ ⟨⟩), (by rintro _ _ _ ⟨⟩)⟩ hinv h
      | locker i a => exact inv_quiet ⟨(by rintro _ _ ⟨⟩), (by rintro _ _ _ ⟨⟩)⟩ hinv h
      | listener i a =>
          cases a with
          | jump l => exact inv_quiet ⟨(by rintro _ _ ⟨⟩), (by rintro _ _ _ ⟨⟩)⟩ hinv h
          | did c r =>
              cases c with
              | read => exact inv_listener_read hinv h
              | write devId ie => exact inv_listener_write hinv h
              | _ => exact inv_listener_other rfl rfl hinv h

theorem inv_run {cfg : Config} {conn args : Bytes} (h : Run Step (Net.init cfg conn args cs) tr s) : Inv cs s :=
  h.invariant (Inv.init cfg conn args cs) fun _ _ _ => inv_step

/-- The packets received are the first of those sent. -/
theorem receivedPackets_sent (p : Peer) : p.receivedPackets <+: p.packets :=
  ((List.take_prefix _ _).drop 1).map _

/-- **End-to-end routing.** Let a daemon and any number of senders run in any interleaving. Every listener
    serves one sender, and no other listener the same; the packets it has received name devices of that sender;
    and for every device `i` of the sender, the listener's `devices[i]` is the virtual device with the prefixed
    name of the sender's `i`-th device, and what was written to it is, in order, the first of what the sender
    has read from that device. -/
theorem routes_end_to_end {cfg : Config} {conn args : Bytes} (h : Run Step (Net.init cfg conn args cs) tr s) {m : Nat}
    {d : ListenerThread} (hd : s.daemon.listeners[m]? = some d) :
    (∀ (n : Nat) (d' : ListenerThread), s.daemon.listeners[n]? = some d' → d'.args.sockfd = d.args.sockfd → n = m) ∧
    ∃ p, peerAt s.peers d.args.sockfd = some p ∧
      (∀ packet ∈ p.receivedPackets, 0 ≤ packet.devId.toInt ∧ packet.devId.toInt < p.config.count) ∧
      ∀ i < p.config.count, ∃ (device : VirtualDevice) (u : UInputDev) (f : DeviceFile),
        d.args.devices[i]? = some device ∧ s.daemon.uinput[device.devfd.toNat]? = some u ∧
        u.name = devPrefix ++ p.config.name i ∧ u.created = true ∧
        p.files[i]? = some f ∧ f.name = p.config.name i ∧ u.log <+: f.log := by
  have hinv := inv_run h
  refine ⟨fun n d' hd' hsame => hinv.sockfd_inj hd' hd hsame, ?_⟩
  obtain ⟨j, p, g, hs⟩ := hinv.served m d hd
  have hpi := hinv.peers p (List.mem_of_getElem? hs.peer)
  have hforwards : Forwards p.config p.toHost := by
    apply (sound_of_ok hpi.ok).resolve_left
    intro hnone
    have hbound := hpi.bound
    have hpos := hs.greeted
    rw [hnone] at hbound
    exact Nat.not_lt_zero _ (Nat.lt_of_lt_of_le hpos hbound)
  refine ⟨p, by rw [hs.sockfd, peerAt_natCast]; exact hs.peer, ?_, ?_⟩
  · intro packet hp
    have hlt := hforwards.indexed packet ((receivedPackets_sent p).subset hp)
    have hfew : p.config.count ≤ 8 := p.config.few
    have hint : packet.devId.toInt = packet.devId.toNat := BitVec.toInt_eq_toNat_of_lt (by omega)
    rw [hint]
    exact ⟨Int.natCast_nonneg _, Int.ofNat_lt.mpr hlt⟩
  · intro i hi
    obtain ⟨u, hu, hname, hcreated, hlog⟩ := hs.devices i hi
    have hfile : i < p.files.length := by rw [hforwards.files_length]; exact hi
    have hfname : (p.files[i]).name = p.config.name i := by
      have hnames := congrArg (·[i]?) hforwards.names
      simp only [List.getElem?_map, List.getElem?_range hi, List.getElem?_eq_getElem hfile] at hnames
      exact Option.some.inj hnames
    have hdev : d.args.devices[i]? = some (deviceFor j (s.base m + i : Nat) (p.config.name i)) := by
      rw [hs.args, argsFor, List.getElem?_map, List.getElem?_range hi]
      rfl
    refine ⟨_, u, p.files[i], hdev, hu, hname, hcreated, List.getElem?_eq_getElem hfile, hfname, ?_⟩
    -- written, received, sent, read: each a prefix of the next
    calc u.log = eventsOf i (g.flatMap Wire.writeOf) := hlog
      _ <+: eventsOf i (Wire.decoded (g.flatMap Wire.readOf)) := eventsOf_prefix i (Wire.written_prefix hs.ok)
      _ = eventsOf i p.receivedPackets := by rw [hs.heard]
      _ <+: eventsOf i p.packets := eventsOf_prefix i (receivedPackets_sent p)
      _ <+: p.logOf i := hforwards.lags i
      _ = (p.files[i]).log := by rw [Host.logOf, List.getElem?_eq_getElem hfile]; rfl

/-! ### One event of one device -/

/-- A sender that forwards one device, `m`. -/
def oneDevice : SenderConfig where
  toConfig := ⟨[], 0, [[109]], 1⟩
  few      := by decide
  short    := by decide

/-- An event, and the packet that carries it. -/
def oneEvent : InputEvent := ⟨List.replicate 24 7, by decide⟩

def onePacket : InputPacket := ⟨0, oneEvent⟩

/-- A call of the first peer. -/
abbrev peerCall (c : SenderCall) (r : c.Resp) : NetEvent := .peer 0 (.did c r)

/-- The peer connects and announces its device. -/
def helloEvents : List NetEvent :=
  [peerCall .socket (3 : Int), peerCall .lock (), peerCall .config oneDevice.toConfig, peerCall (.inetPton []) (1 : Int),
    peerCall (.connect 3 [] 0) (0 : Int), peerCall .unlock (), peerCall .config oneDevice.toConfig, peerCall .lock (),
    peerCall .config oneDevice.toConfig, peerCall (.openDevice [109]) (0 : Int), peerCall .unlock (),
    peerCall (.sendConn 3 (oneDevice.conn 1)) (520 : Int), peerCall .createLock (), .peer 0 (.jump (.loop ⟨3, [0]⟩))]

/-- The daemon accepts it and gives it a listener. -/
def welcomeEvents : List NetEvent :=
  (Daemon.boot ++ [Daemon.mainCall .accept (0 : Int), Daemon.mainCall (.recvConn 0) (Daemon.received oneDevice.hello),
    Daemon.mainCall .numConns (0 : Nat), Daemon.mainCall .lockListener (), Daemon.mainCall .openUinput (0 : Int),
    Daemon.mainCall (.devSetup 0 (deviceName [109])) (), Daemon.mainCall (.devCreate 0) (),
    Daemon.mainCall .unlockListener (), Daemon.mainCall (.createListener 0 (argsFor oneDevice 0 0 0)) ()]).map .daemon

/-- A round of the peer, and what the listener makes of it. -/
def eventEvents : List NetEvent :=
  [peerCall .lock (), peerCall .config oneDevice.toConfig, peerCall .unlock (), .peer 0 (.jump (.round ⟨3, [0]⟩ 1)),
    peerCall (.poll [0]) ⟨1, [true]⟩, peerCall (.read 0 0) (.data oneEvent.bytes (by decide)),
    peerCall (.send 3 onePacket) (32 : Int),
    .daemon (.listener 0 (.did .read (.data onePacket.encode (by decide)))),
    .daemon (.listener 0 (.did (.write 0 oneEvent) ()))]

/-- The event has arrived at the device with the prefixed name. -/
theorem routes_end_to_end_one :
    ∃ (s : Net) (d : ListenerThread) (p : Peer) (u : UInputDev) (f : DeviceFile),
      Run Step (Net.init Daemon.emptyConfig [] [] [oneDevice])
        (helloEvents ++ welcomeEvents ++ eventEvents) s ∧
      s.daemon.listeners[0]? = some d ∧ peerAt s.peers d.args.sockfd = some p ∧ p.files[0]? = some f ∧
      u.name = devPrefix ++ p.config.name 0 ∧ f.name = p.config.name 0 ∧ u.log = [oneEvent] ∧ u.log <+: f.log := by
  have hexec : (execs exec (Net.init Daemon.emptyConfig [] [] [oneDevice])
      (helloEvents ++ welcomeEvents ++ eventEvents)).map
        (fun s => (s.daemon.listeners.length, s.peers.map (·.config.count), s.daemon.uinput.map (·.log))) =
      some (1, [1], [[oneEvent]]) := by
    decide +kernel
  obtain ⟨s, hrun, hfin⟩ := Run.exists_of_execs hexec
  obtain ⟨hlen, hrest⟩ := Prod.mk.inj hfin
  obtain ⟨hcounts, hlogs⟩ := Prod.mk.inj hrest
  have hget : s.daemon.listeners[0]? = some (s.daemon.listeners.get ⟨0, by omega⟩) :=
    List.getElem?_eq_getElem _
  obtain ⟨-, p, hp, -, hdevs⟩ := routes_end_to_end hrun hget
  have hcount : p.config.count = 1 := by
    obtain ⟨j, -, hj⟩ := peerAt_eq hp
    have hmem := List.mem_map_of_mem (f := fun p : Peer => p.config.count) (List.mem_of_getElem? hj)
    rw [hcounts] at hmem
    exact List.mem_singleton.mp hmem
  obtain ⟨device, u, f, -, hu, hname, -, hf, hfname, hlog⟩ := hdevs 0 (by omega)
  have hone : u.log = [oneEvent] := by
    have hmem := List.mem_map_of_mem (f := fun u : UInputDev => u.log) (List.mem_of_getElem? hu)
    rw [hlogs] at hmem
    exact List.mem_singleton.mp hmem
  exact ⟨s, _, p, u, f, hrun, hget, hp, hf, hname, hfname, hone, hlog⟩

end Net

end IOSwitch
