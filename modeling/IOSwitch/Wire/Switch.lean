import IOSwitch.Daemon.Capacity
import IOSwitch.Daemon.Recovery
import IOSwitch.Wire.Flush
import IOSwitch.Wire.Link

/-!
# `Wire.Switch` — the switch can be switched on

The other modules say what does not go wrong; this one says that it works. From every state of two daemons that wait for
connections (`Link.Idle`), a START at home has a way on in which its sender connects to the other side, is given a
listener there, and any events of its devices are written to the virtual devices of the same names; but only as long as
fewer than `maxConnections` listeners have ever been created on the other side (`Link.switches_on_iff`).

Each thread in turn is led through its blocks by a contract whose answers are the kind ones: the main thread at home
serves the START, the sender goes round its loop once for each event, the main thread away makes one round of its accept
loop, and the listener reads. That a call can have the answer its contract asks for, while the others stand still, is a
step lemma for each thread (`SenderAt.goes`, `WelcomeAt.goes`); the rule of guidance (`wp_guided`) does the rest.

## Contents
- `Daemon.start_possible` — the START.
- `kindContract`, `Sender.setup_kind`, `Sender.round_kind` — a sender that nothing goes wrong for.
- `Link.SenderAt` — where it is; `sets_out`, `forwards_all`.
- `welcomeContract`, `acceptOne_welcome`, `Link.WelcomeAt` — likewise for the main thread away.
- `Net.Flow.settled` — what the devices have got.
- `Link.Idle`, `Link.can_forward`, `Link.args_full`, `Link.switches_on_iff`.
-/

namespace IOSwitch

open Lib Server

/-! ## START at home -/

namespace Daemon

/-- **A START can be served** whenever the main thread is at the head of its loop, the flag is 0 and the mutex free. -/
theorem start_possible {s : Daemon} {conn args : Bytes} (hx : s.exited = false)
    (hm : s.main = .start runServer (.loop conn args)) (hsending : s.sending = false) (hfree : s.senderMutex = none) :
    ∃ tr s', Run Step s tr s' ∧ (∀ e ∈ tr, ∃ a, e = .main a) ∧ s'.exited = false ∧ s'.sending = true ∧
      s'.senderMutex = none ∧ s'.configs = s.configs ∧
      s'.senders = s.senders ++ [⟨s.config, .start spawnSenderThread .entry⟩] := by
  have hreceive := run_receive hx hm (plainArgs_length .start)
  have htype : (CommandArgs.ofMem (overlay args (plainArgs .start))).type = .start := by
    rw [ofMem_overlay (plainArgs_length .start)]
    decide +kernel
  have hjump := can_jump (s := { s with
    main := ⟨.loop conn args, .ret (.handle (overlay conn commandConn) (overlay args (plainArgs .start)))⟩ }) hx rfl
  have hhandler : (execs exec { s with
      main := .start runServer (.handle (overlay conn commandConn) (overlay args (plainArgs .start))) } startEvents).map
      (fun s' => (s'.exited, s'.sending, s'.senderMutex, s'.configs, s'.senders)) =
      some (false, true, none, s.configs, s.senders ++ [⟨s.config, .start spawnSenderThread .entry⟩]) := by
    simp [startEvents, execs, exec, hx, Thread.start, Thread.fire, runServer, commands, htype, Handler.start, effectOf,
      Shared.serverEffect, newSenders, newListeners, Shared.lockSender, Shared.unlockSender, hfree, Shared.check,
      hsending]
  obtain ⟨s', hrun, hfin⟩ := Run.exists_of_execs hhandler
  simp only [Prod.mk.injEq] at hfin
  refine ⟨_, s', hreceive.append (Run.cons hjump hrun), ?_, hfin⟩
  simp [receive, startEvents]

end Daemon

/-! ## A sender that is answered kindly -/

/-- Nothing fails, device `i` alone is ready, what is read from it is `e`, and the flag is 1. -/
def Kind (i : Nat) (e : InputEvent) : (call : SenderCall) → call.Resp → Prop
  | .socket, fd        => 0 ≤ fd
  | .inetPton _, r     => 0 < r
  | .connect _ _ _, r  => 0 ≤ r
  | .openDevice _, fd  => 0 ≤ fd
  | .sendConn _ _, r   => 0 ≤ r
  | .poll _, p         => 0 ≤ p.ret ∧ ∀ k, p.revents.getD k false = decide (k = i)
  | .read _ _, r       => r.bytes = e.bytes ∧ 0 ≤ r.ret
  | .send _ _, r       => 0 < r
  | .sending, b        => b = true
  | _, _               => True

/-- The calls of a sender with config `c` on its host, answered kindly. They go to its socket and its files. -/
def kindContract (c : SenderConfig) (i : Nat) (e : InputEvent) : Contract senderI Host where
  pre h call := match call with
    | .connect fd _ _ | .sendConn fd _ | .send fd _ => fd = h.socket
    | .read _ fd                                    => 0 ≤ fd
    | _                                             => True
  post h call r h' := h.effect c.toConfig call r = some h' ∧ Kind i e call r

/-- The packets `ps` have been sent since, on the same connection. -/
structure Further (h h' : Host) (ps : List InputPacket) : Prop where
  socket    : h'.socket = h.socket
  connected : h'.connected = h.connected
  packets   : h'.packets = h.packets ++ ps

theorem Further.refl (h : Host) : Further h h [] := ⟨rfl, rfl, (List.append_nil _).symm⟩

theorem Further.trans {h h' h'' : Host} {ps qs : List InputPacket} (hp : Further h h' ps) (hq : Further h' h'' qs) :
    Further h h'' (ps ++ qs) :=
  ⟨hq.socket.trans hp.socket, hq.connected.trans hp.connected, by rw [hq.packets, hp.packets, List.append_assoc]⟩

namespace Sender

variable {c : SenderConfig} {i : Nat} {e : InputEvent} {h : Host}

theorem openDevices_kind (n k : Nat) (conn : NewConnection) (fds : List Int) :
    wp (kindContract c i e) (openDevices c.toConfig n k conn fds)
      (fun h' opened => h'.socket = h.socket ∧ h'.sent = h.sent ∧ h'.connected = h.connected ∧
        opened.isSome = true) h := by
  induction n generalizing k conn fds h with
  | zero => exact ⟨rfl, rfl, rfl, rfl⟩
  | succ n ih =>
      refine ⟨trivial, ?_⟩
      rintro fd h' ⟨hopen, hpos⟩
      show wp _ (if fd < 0 then _ else _) _ _
      rw [if_neg (Int.not_lt.mpr hpos)]
      simp only [Host.effect] at hopen
      split at hopen
      · obtain rfl := Option.some.inj hopen
        exact ih (h := { h with files := h.files ++ [⟨_, []⟩] }) _ _ _
      · cases hopen

/-- A read of the config answers the sender's own. -/
theorem kind_config {r : Config} {h' : Host} (hp : (kindContract c i e).post h .config r h') :
    r = c.toConfig ∧ h' = h :=
  effect_config hp.1

theorem connectToServer_kind (ip : Bytes) (port : UInt16) :
    wp (kindContract c i e) (connectToServer h.socket ip port)
      (fun h' r => h'.socket = h.socket ∧ h'.sent = h.sent ∧ h'.connected = true ∧ 0 ≤ r) h := by
  refine ⟨trivial, ?_⟩
  rintro r h' ⟨he, hpos⟩
  obtain rfl : h = h' := Option.some.inj he
  show wp _ (if r ≤ 0 then _ else _) _ _
  rw [if_neg (Int.not_le.mpr hpos)]
  refine ⟨rfl, ?_⟩
  rintro r h' ⟨he, hpos⟩
  show wp _ (if r < 0 then _ else _) _ _
  rw [if_neg (Int.not_lt.mpr hpos)]
  simp only [Host.effect] at he
  split at he
  · obtain rfl := Option.some.inj he
    exact ⟨rfl, rfl, rfl, Int.le_refl 0⟩
  · cases he

/-- **The sender connects**, opens its devices and announces them. -/
theorem setup_kind (hsent : h.sent = []) :
    wp (kindContract c i e) setup
      (fun h' l => ∃ env, l = .loop env ∧ env.fd = h'.socket ∧ h'.connected = true ∧ h'.packets = []) h := by
  refine ⟨trivial, ?_⟩
  rintro fd h' ⟨he, hpos⟩
  obtain rfl : { h with socket := fd } = h' := Option.some.inj he
  show wp _ (if fd < 0 then _ else _) _ _
  rw [if_neg (Int.not_lt.mpr hpos)]
  refine ⟨trivial, ?_⟩
  rintro _ h' ⟨he, -⟩
  obtain rfl := Option.some.inj he
  refine ⟨trivial, ?_⟩
  intro config h' hp
  obtain ⟨rfl, rfl⟩ := kind_config hp
  show wp _ (connectToServer _ _ _ >>= _) _ _
  refine wp_seq (connectToServer_kind _ _) ?_
  rintro h₁ r ⟨hsock, hsent₁, hconn₁, hr⟩
  replace hsent₁ : h₁.sent = [] := hsent₁.trans hsent
  show wp _ (if r < 0 then _ else _) _ _
  rw [if_neg (Int.not_lt.mpr hr)]
  refine ⟨trivial, ?_⟩
  rintro _ h' ⟨he, -⟩
  obtain rfl : h₁ = h' := Option.some.inj he
  refine ⟨trivial, ?_⟩
  intro config h' hp
  obtain ⟨rfl, rfl⟩ := kind_config hp
  refine ⟨trivial, ?_⟩
  rintro _ h' ⟨he, -⟩
  obtain rfl := Option.some.inj he
  refine ⟨trivial, ?_⟩
  intro config h' hp
  obtain ⟨rfl, rfl⟩ := kind_config hp
  show wp _ (openDevices _ _ _ _ _ >>= _) _ _
  refine wp_seq (openDevices_kind _ _ _ _) ?_
  rintro h₂ opened ⟨hsock₂, hsent₂, hconn₂, hsome⟩
  obtain ⟨⟨conn, fds⟩, rfl⟩ := Option.isSome_iff_exists.mp hsome
  refine ⟨trivial, ?_⟩
  rintro _ h' ⟨he, -⟩
  obtain rfl : h₂ = h' := Option.some.inj he
  -- the socket is still the one the connection was made on
  have hfd : fd = h₂.socket := (hsock₂.trans hsock).symm
  refine ⟨hfd, ?_⟩
  rintro sent h' ⟨he, hpos⟩
  show wp _ (if sent < 0 then _ else _) _ _
  rw [if_neg (Int.not_lt.mpr hpos)]
  rcases Host.sendMessage_eq he with ⟨hneg, -⟩ | ⟨-, rfl⟩
  · exact absurd hneg (Int.not_lt.mpr hpos)
  refine ⟨trivial, ?_⟩
  rintro _ h' ⟨he, -⟩
  obtain rfl := Option.some.inj he
  refine ⟨⟨fd, fds⟩, rfl, hfd, hconn₂.trans hconn₁, ?_⟩
  rw [Host.packets, Host.push, hsent₂, hsent₁]
  rfl

/-- It reads the number of its devices. -/
theorem loop_kind (env : SenderEnv) :
    wp (kindContract c i e) (spawnSenderThread (.loop env)) (fun h' l => h' = h ∧ l = .round env c.count) h := by
  refine ⟨trivial, ?_⟩
  rintro _ h' ⟨he, -⟩
  obtain rfl : h = h' := Option.some.inj he
  refine ⟨trivial, ?_⟩
  intro config h' hp
  obtain ⟨rfl, rfl⟩ := kind_config hp
  refine ⟨trivial, ?_⟩
  rintro _ h' ⟨he, -⟩
  obtain rfl := Option.some.inj he
  exact ⟨rfl, rfl⟩

/-- Before it comes to device `i`, from which it has yet to read, and after. -/
theorem forwardReady_kind {env : SenderEnv} {revents : List Bool} (hready : ∀ k, revents.getD k false = decide (k = i))
    (hfds : ∀ k < c.count, env.deviceFds.getD k (-1) = k) (hi : i < c.count) (n k : Nat) (packet : InputPacket)
    (hn : k + n = c.count) (hsocket : env.fd = h.socket) (hsent : h.sent ≠ []) :
    wp (kindContract c i e) (forwardReady env.deviceFds revents env.fd n k packet)
      (fun h' r => Further h h' (if k ≤ i then [⟨BitVec.ofNat 32 i, e⟩] else []) ∧ 0 ≤ r) h := by
  induction n generalizing k packet h with
  | zero =>
      rw [if_neg (by omega)]
      exact ⟨.refl h, Int.le_refl 0⟩
  | succ n ih =>
      show wp _ (if revents.getD k false then _ else _) _ _
      rw [hready]
      by_cases hk : k = i
      · subst hk
        rw [if_pos (decide_eq_true rfl), if_pos (Nat.le_refl k)]
        rw [hfds k hi]
        refine ⟨Int.natCast_nonneg k, ?_⟩
        rintro r h' ⟨hread, hbytes, hpos⟩
        show wp _ (if r.ret < 0 then _ else _) _ _
        rw [if_neg (Int.not_lt.mpr hpos), hbytes, InputEvent.fill_bytes]
        rcases Host.effect_read hread with ⟨hneg, -⟩ | ⟨ev, -, -, rfl⟩
        · exact absurd hneg (Int.not_lt.mpr hpos)
        refine ⟨hsocket, ?_⟩
        rintro sent h' ⟨hsend, hpos⟩
        show wp _ (if sent ≤ 0 then _ else _) _ _
        rw [if_neg (Int.not_le.mpr hpos)]
        rcases Host.sendMessage_eq hsend with ⟨hneg, -⟩ | ⟨-, rfl⟩
        · exact absurd hneg (Int.not_lt.mpr (Int.le_of_lt hpos))
        -- the devices behind it are not ready
        have hne : (h.readFrom (Int.toNat k) ev).sent ≠ [] := hsent
        have hpushed : ((h.readFrom (Int.toNat k) ev).push (InputPacket.encode ⟨BitVec.ofNat 32 k, e⟩)).sent ≠ [] := by
          rw [Host.push]
          exact List.append_ne_nil_of_right_ne_nil _ (List.cons_ne_nil _ _)
        have hone : Further h ((h.readFrom (Int.toNat k) ev).push (InputPacket.encode ⟨BitVec.ofNat 32 k, e⟩))
            [⟨BitVec.ofNat 32 k, e⟩] :=
          ⟨rfl, rfl, by rw [Host.packets_push hne, Host.packets_readFrom]⟩
        refine wp_mono (ih (k + 1) _ (by omega) hsocket hpushed) ?_
        rintro h' r ⟨hmore, hr⟩
        rw [if_neg (by omega)] at hmore
        exact ⟨hone.trans hmore, hr⟩
      · rw [if_neg (by simpa using hk)]
        refine wp_mono (ih (k + 1) packet (by omega) hsocket hsent) ?_
        rintro h' r ⟨hmore, hr⟩
        have hiff : k + 1 ≤ i ↔ k ≤ i := by omega
        simp only [hiff] at hmore
        exact ⟨hmore, hr⟩

/-- **A round** forwards the event. -/
theorem round_kind {env : SenderEnv} (hsynced : Synced c env h) (hi : i < c.count) (hsocket : env.fd = h.socket) :
    wp (kindContract c i e) (spawnSenderThread (.round env c.count))
      (fun h' l => Further h h' [⟨BitVec.ofNat 32 i, e⟩] ∧ l = .check env true) h := by
  have hsend : wp (kindContract c i e) (sendInputEvent c.count env.deviceFds env.fd)
      (fun h' r => Further h h' [⟨BitVec.ofNat 32 i, e⟩] ∧ 0 ≤ r) h := by
    refine ⟨trivial, ?_⟩
    rintro p h' ⟨he, hpos, hready⟩
    obtain rfl : h = h' := Option.some.inj he
    show wp _ (if p.ret < 0 then _ else _) _ _
    rw [if_neg (Int.not_lt.mpr hpos)]
    exact forwardReady_kind hready (fun _ => hsynced.deviceFd) hi c.count 0 .zero (Nat.zero_add _) hsocket
      hsynced.sent_ne_nil
  refine wp_seq hsend ?_
  rintro h' r ⟨hmore, hr⟩
  exact ⟨hmore, by rw [decide_eq_true hr]⟩

/-- It goes on as long as the flag is 1. -/
theorem check_kind (env : SenderEnv) :
    wp (kindContract c i e) (spawnSenderThread (.check env true)) (fun h' l => h' = h ∧ l = .loop env) h := by
  refine ⟨trivial, ?_⟩
  rintro _ h' ⟨he, -⟩
  obtain rfl : h = h' := Option.some.inj he
  refine ⟨trivial, ?_⟩
  rintro sending h' ⟨he, hsending⟩
  obtain rfl : h = h' := Option.some.inj he
  refine ⟨trivial, ?_⟩
  rintro _ h' ⟨he, -⟩
  obtain rfl := Option.some.inj he
  refine ⟨rfl, ?_⟩
  show (if true && sending then _ else _) = _
  rw [show sending = true from hsending]
  rfl

end Sender

/-- Device `i` alone is ready. -/
theorem ready_only (i k : Nat) : (List.replicate i false ++ [true]).getD k false = decide (k = i) := by
  rw [List.getD_eq_getElem?_getD]
  rcases Nat.lt_trichotomy k i with hlt | rfl | hgt
  · rw [List.getElem?_append_left (by simpa using hlt), List.getElem?_replicate_of_lt hlt]
    exact (decide_eq_false hlt.ne).symm
  · simp
  · rw [List.getElem?_eq_none (by simp; omega)]
    exact (decide_eq_false hgt.ne').symm

/-- Every call can be answered kindly, unless it waits for the mutex. -/
theorem kind_possible {c : SenderConfig} {i : Nat} {e : InputEvent} {s : Daemon} {h : Host} {j ref : Nat}
    {call : SenderCall} (hpre : (kindContract c i e).pre h call)
    (hconfig : s.configs[ref]? = some ⟨c.toConfig, false⟩) (hsending : s.sending = true)
    (hlock : call = .lock → s.senderMutex = none)
    (hunlock : call = .unlock → s.senderMutex = some (.sender j)) :
    ∃ (r : call.Resp) (sh : Shared) (h' : Host), s.senderEffect j ref call r = some sh ∧
      (kindContract c i e).post h call r h' ∧
      (sh.senderMutex = s.senderMutex ∨ sh.senderMutex = none ∨ sh.senderMutex = some (.sender j)) := by
  have hone : (0 : Int) < 1 := by decide
  have hone' : (0 : Int) ≤ 1 := by decide
  have hsize : (0 : Int) < InputPacket.size := by decide
  cases call with
  | lock => exact ⟨(), _, h, Shared.lockSender_eq.mpr ⟨hlock rfl, rfl⟩, ⟨rfl, trivial⟩, .inr (.inr rfl)⟩
  | unlock => exact ⟨(), _, h, Shared.unlockSender_eq.mpr ⟨hunlock rfl, rfl⟩, ⟨rfl, trivial⟩, .inr (.inl rfl)⟩
  | config =>
      have hread : s.holdsConfig ref c.toConfig = true := by simp [Shared.holdsConfig, hconfig]
      exact ⟨c.toConfig, _, h, Shared.check_eq.mpr ⟨hread, rfl⟩, ⟨if_pos rfl, trivial⟩, .inl rfl⟩
  | sending => exact ⟨true, _, h, Shared.check_eq.mpr ⟨by simp [hsending], rfl⟩, ⟨rfl, rfl⟩, .inl rfl⟩
  | socket => exact ⟨(1 : Int), _, _, rfl, ⟨rfl, hone'⟩, .inl rfl⟩
  | inetPton ip => exact ⟨(1 : Int), _, h, rfl, ⟨rfl, hone⟩, .inl rfl⟩
  | connect fd ip port => exact ⟨(0 : Int), _, _, rfl, ⟨if_pos ⟨Int.le_refl 0, hpre⟩, Int.le_refl 0⟩, .inl rfl⟩
  | openDevice n =>
      exact ⟨(h.files.length : Int), _, _, rfl, ⟨if_pos rfl, Int.natCast_nonneg _⟩, .inl rfl⟩
  | sendConn fd conn =>
      have hpos : ¬ (conn.encode.length : Int) < 0 := Int.not_lt.mpr (Int.natCast_nonneg _)
      refine ⟨(conn.encode.length : Int), _, h.push conn.encode, rfl, ⟨?_, Int.natCast_nonneg _⟩, .inl rfl⟩
      show h.sendMessage fd conn.encode _ = _
      rw [Host.sendMessage, if_neg hpos, if_pos ⟨hpre, rfl⟩]
  | send fd packet =>
      refine ⟨(InputPacket.size : Int), _, h.push packet.encode, rfl, ⟨?_, hsize⟩, .inl rfl⟩
      show h.sendMessage fd packet.encode _ = _
      rw [Host.sendMessage, if_neg (by decide), packet.encode_length, if_pos ⟨hpre, rfl⟩]
  | poll devfd =>
      exact ⟨⟨1, List.replicate i false ++ [true]⟩, _, h, rfl, ⟨rfl, hone', ready_only i⟩, .inl rfl⟩
  | read k fd =>
      refine ⟨.data e.bytes e.size.le, _, _, rfl, ⟨dif_pos ⟨e.size, hpre⟩, rfl, Int.natCast_nonneg _⟩, .inl rfl⟩
  | createLock | joinLock => exact ⟨(), _, h, rfl, ⟨rfl, trivial⟩, .inl rfl⟩

namespace Net

/-- A step of the main thread that the connections allow. -/
theorem main_possible {s : Net} {a : Act serverI ServerLoc} {d : Daemon} {ps : List Peer}
    (hd : Daemon.Step s.daemon (.main a) d) (hps : deliver s.daemon s.peers (.main a) = some ps) :
    Step s (.daemon (.main a)) ⟨d, ps⟩ := by
  have hstep : s.daemon.exec (.main a) = some d := hd
  simp only [Step, exec, hstep, hps, Option.bind_some, Option.map_some]

/-- A peer that has not connected is left alone. -/
theorem deliver_closed {d : Daemon} {ps ps' : List Peer} {e : Event} (h : deliver d ps e = some ps') {j : Nat}
    {p : Peer} (hp : ps[j]? = some p) (hconn : p.connected = false) (hacc : p.accepted = false) : ps'[j]? = some p := by
  have hsame : some ps = some ps' → ps'[j]? = some p := fun heq => by rw [← Option.some.inj heq]; exact hp
  have hreceive : ∀ {fd : Int} {m : Bytes}, receive ps fd m = some ps' → ps'[j]? = some p := by
    intro fd m h
    obtain ⟨i, q, -, hq, hqacc, -, rfl⟩ := receive_eq h
    by_cases hij : i = j
    · subst hij
      obtain rfl : p = q := Option.some.inj (hp.symm.trans hq)
      exact absurd (hacc.symm.trans hqacc) Bool.false_ne_true
    · rw [List.getElem?_set_ne hij]
      exact hp
  unfold deliver at h
  split at h
  · next fd =>
    split at h
    · next q hq =>
      obtain ⟨i, rfl, hi⟩ := peerAt_eq hq
      split at h
      · next hopen =>
        obtain rfl := Option.some.inj h
        rw [Int.toNat_natCast]
        by_cases hij : i = j
        · subst hij
          obtain rfl : p = q := Option.some.inj (hp.symm.trans hi)
          exact absurd (hconn.symm.trans hopen.1) Bool.false_ne_true
        · rw [List.getElem?_set_ne hij]
          exact hp
      · cases h
    · exact hsame h
  · split at h
    · exact hsame h
    split at h
    · exact hreceive h
    split at h
    · exact hsame h
    · cases h
  · split at h
    · exact hsame h
    · cases h
  · split at h
    · exact hsame h
    · obtain ⟨l, -, h⟩ := Option.bind_eq_some_iff.mp h
      exact hreceive h
  · exact hsame h

end Net

namespace Link

variable {home away : Config × Bytes × Bytes} {cs : List SenderConfig} {s : Link}

/-! ### Runs of one part -/

/-- A run of the main thread at home alone. -/
theorem home_alone {d d' : Daemon} {n : Net} {tr : List Event} (h : Run Daemon.Step d tr d')
    (hmain : ∀ e ∈ tr, ∃ a, e = .main a) : ∃ tr', Run Step ⟨d, n⟩ tr' ⟨d', n⟩ := by
  refine ⟨_, h.embed (f := fun d => (⟨d, n⟩ : Link)) (g := LinkEvent.home) fun a b e he hs => ?_⟩
  obtain ⟨act, rfl⟩ := hmain e he
  have hstep : a.exec (.main act) = some b := hs
  simp [Step, exec, LinkEvent.homeEvent, LinkEvent.netEvent, hstep]

/-- A step of the daemon away. -/
theorem away_possible {e : Event} {n : Net} (h : Net.Step s.away (.daemon e) n) : Step s (.away e) ⟨s.home, n⟩ := by
  have hstep : s.away.exec (.daemon e) = some n := h
  simp [Step, exec, LinkEvent.homeEvent, LinkEvent.netEvent, hstep]

/-- A run of a listener away alone. -/
theorem away_alone {m : Nat} {d : Daemon} {n n' : Net} {tr : List NetEvent} (h : Run Net.Step n tr n')
    (hof : ∀ e ∈ tr, Net.OfListener m e) : ∃ tr', Run Step ⟨d, n⟩ tr' ⟨d, n'⟩ := by
  refine ⟨_, h.embed (f := fun n => (⟨d, n⟩ : Link)) (g := linkEvent) fun a b e he hs => ?_⟩
  obtain ⟨act, rfl⟩ := hof e he
  exact away_possible (s := ⟨d, a⟩) hs

/-! ### A peer whose sender has yet to be created -/

/-- It has done nothing. -/
def Fresh (s : Link) : Prop :=
  ∀ (j : Nat) (p : Peer), s.home.senders.length ≤ j → s.away.peers[j]? = some p → p = .start p.config

theorem fresh_step {e : LinkEvent} {s' : Link} (hfresh : Fresh s) (h : Step s e s') : Fresh s' := by
  obtain ⟨hhome, hnet⟩ := step_eq h
  intro j p' hj hp'
  cases e with
  | away e =>
      have hstep : Net.Step s.away (.daemon e) s'.away := hnet
      rw [← Option.some.inj hhome] at hj
      obtain ⟨p, hp, hhost, hconfig, hthread⟩ := Net.deliver_sender (Net.step_daemon hstep).2 hp'
      have hstart := hfresh j p hj hp
      have hsame := Net.deliver_closed (Net.step_daemon hstep).2 hp (by rw [hstart]; rfl) (by rw [hstart]; rfl)
      obtain rfl : p = p' := Option.some.inj (hsame.symm.trans hp')
      exact hstart
  | home e =>
      have hstep : Daemon.Step s.home e s'.home := hhome
      have hle := Daemon.senders_length_le hstep
      cases e with
      | sender i a =>
          obtain ⟨d, t', _, hd, -, -, -⟩ := Daemon.step_sender hstep
          obtain ⟨p, t, host, hp, -, -, haway⟩ := Net.step_peer hnet
          have hi : i < s.home.senders.length := (List.getElem?_eq_some_iff.mp hd).1
          rw [haway, List.getElem?_set_ne (by omega)] at hp'
          exact hfresh j p' (by omega) hp'
      | _ =>
          rw [← Option.some.inj hnet] at hp'
          exact hfresh j p' (by omega) hp'

theorem fresh_run {tr : List LinkEvent} (h : Run Step (init home away cs) tr s) : Fresh s := by
  refine h.invariant (fun j p _ hp => ?_) fun _ _ _ => fresh_step
  obtain ⟨c, -, rfl⟩ := List.mem_map.mp (List.mem_of_getElem? hp)
  rfl

/-! ### The steps of a sender -/

/-- A step of a sender that both parts can take. -/
theorem sender_possible {j : Nat} {a : Act senderI SenderLoc} {d : Daemon} {n : Net}
    (hhome : Daemon.Step s.home (.sender j a) d) (haway : Net.Step s.away (.peer j a) n) :
    Step s (.home (.sender j a)) ⟨d, n⟩ := by
  have hd : s.home.exec (.sender j a) = some d := hhome
  have hn : s.away.exec (.peer j a) = some n := haway
  simp only [Step, exec, LinkEvent.homeEvent, LinkEvent.netEvent, Option.elim_some, hd, hn, Option.bind_some,
    Option.map_some]

/-- The `j`-th sender, with the config of block `ref`, `c`, has `p` left of its block, and its host is `h`. The daemon
    away is `d`, and has not heard of it. -/
structure SenderAt (home away : Config × Bytes × Bytes) (cs : List SenderConfig) (j ref : Nat) (c : SenderConfig)
    (d : Daemon) (s : Link) (p : Prog senderI SenderLoc) (h : Host) : Prop where
  reach   : ∃ tr, Run Step (init home away cs) tr s
  alive   : s.home.exited = false
  sending : s.home.sending = true
  mutex   : s.home.senderMutex = none ∨ s.home.senderMutex = some (.sender j)
  config  : s.home.configs[ref]? = some ⟨c.toConfig, false⟩
  sender  : ∃ t, s.home.senders[j]? = some ⟨ref, t⟩ ∧ t.rest = p
  peer    : ∃ q, s.away.peers[j]? = some q ∧ q.toHost = h ∧ q.config = c ∧ q.thread.rest = p ∧
    q.accepted = false ∧ q.received = 0
  daemon  : s.away.daemon = d

/-- **Step lemma.** The sender goes on, at home and in the net. -/
theorem SenderAt.goes {j ref i : Nat} {c : SenderConfig} {e : InputEvent} {d : Daemon} {s : Link} {call : SenderCall}
    {k : call.Resp → Prog senderI SenderLoc} {h : Host}
    (hat : SenderAt home away cs j ref c d s (.call (I := senderI) call k) h) (hpre : (kindContract c i e).pre h call) :
    ∃ (r : call.Resp) (h' : Host) (ev : LinkEvent) (s' : Link), (kindContract c i e).post h call r h' ∧ Step s ev s' ∧
      SenderAt home away cs j ref c d s' (k r) h' := by
  obtain ⟨tr, hrun⟩ := hat.reach
  obtain ⟨t, ht, hrest⟩ := hat.sender
  obtain ⟨q, hq, rfl, rfl, hqrest, hacc, hrec⟩ := hat.peer
  have hmutex : mutexContract.pre (decide (s.home.senderMutex = some (.sender j))) call :=
    (((Daemon.mutexInv_run (home_run hrun)).senders j _ ht).of_call hrest).1
  have hlock : call = .lock → s.home.senderMutex = none := by
    rintro rfl
    exact hat.mutex.resolve_right (of_decide_eq_false hmutex)
  have hunlock : call = .unlock → s.home.senderMutex = some (.sender j) := by
    rintro rfl
    exact of_decide_eq_true hmutex
  obtain ⟨r, sh, h', hsh, hpost, hafter⟩ := kind_possible (j := j) hpre hat.config hat.sending hlock hunlock
  have hf : t.fire spawnSenderThread (.did call r) = some ⟨t.loc, k r⟩ :=
    (Thread.fire_did (I := senderI)).mpr ⟨k, hrest, rfl⟩
  have hqf : q.thread.fire spawnSenderThread (.did call r) = some ⟨q.thread.loc, k r⟩ :=
    (Thread.fire_did (I := senderI)).mpr ⟨k, hqrest, rfl⟩
  have hhome := Daemon.sender_possible hat.alive ht hf hsh
  have hact : q.act (.did call r) = some h' := hpost.1
  have haway := Net.peer_possible hq hqf hact
  have hframe := Shared.senderEffect_frame hsh
  have hstep := sender_possible hhome haway
  refine ⟨r, h', _, _, hpost, hstep, ⟨_, hrun.snoc hstep⟩, hat.alive, ?_, ?_, ?_, ?_, ?_, hat.daemon⟩
  · show sh.sending = true
    rw [hframe]
    exact hat.sending
  · show sh.senderMutex = none ∨ sh.senderMutex = some (.sender j)
    rcases hafter with heq | hafter
    · rw [heq]
      exact hat.mutex
    · exact hafter
  · show sh.configs[ref]? = _
    rw [hframe]
    exact hat.config
  · exact ⟨_, List.getElem?_set_self (List.getElem?_eq_some_iff.mp ht).1, rfl⟩
  · exact ⟨_, List.getElem?_set_self (List.getElem?_eq_some_iff.mp hq).1, rfl, rfl, rfl, hacc, hrec⟩

namespace SenderAt

variable {j ref i : Nat} {c : SenderConfig} {d : Daemon} {h : Host}

/-- Likewise to its next block. -/
theorem jumps {l : SenderLoc} (hat : SenderAt home away cs j ref c d s (.ret l) h) :
    ∃ ev s', Step s ev s' ∧ SenderAt home away cs j ref c d s' (spawnSenderThread l) h := by
  obtain ⟨tr, hrun⟩ := hat.reach
  obtain ⟨t, ht, hrest⟩ := hat.sender
  obtain ⟨q, hq, rfl, rfl, hqrest, hacc, hrec⟩ := hat.peer
  have hf : t.fire spawnSenderThread (.jump l) = some (.start spawnSenderThread l) :=
    (Thread.fire_jump (I := senderI)).mpr ⟨hrest, rfl⟩
  have hqf : q.thread.fire spawnSenderThread (.jump l) = some (.start spawnSenderThread l) :=
    (Thread.fire_jump (I := senderI)).mpr ⟨hqrest, rfl⟩
  have hstep := sender_possible (Daemon.sender_possible hat.alive ht hf rfl) (Net.peer_possible hq hqf rfl)
  refine ⟨_, _, hstep, ⟨_, hrun.snoc hstep⟩, hat.alive, hat.sending, hat.mutex, hat.config, ?_, ?_, hat.daemon⟩
  · exact ⟨_, List.getElem?_set_self (List.getElem?_eq_some_iff.mp ht).1, rfl⟩
  · exact ⟨_, List.getElem?_set_self (List.getElem?_eq_some_iff.mp hq).1, rfl, rfl, rfl, hacc, hrec⟩

/-- What the sender keeps true at the end of a block. -/
theorem label {l : SenderLoc} (hat : SenderAt home away cs j ref c d s (.ret l) h) : SendingAt c l h := by
  obtain ⟨tr, hrun⟩ := hat.reach
  obtain ⟨q, hq, rfl, rfl, hqrest, -⟩ := hat.peer
  exact ((Net.inv_run (net_run hrun)).peers q (List.mem_of_getElem? hq)).ok.of_ret hqrest

/-- A block that is run kindly to its end. -/
theorem runs {e : InputEvent} {p : Prog senderI SenderLoc} {Q : Host → SenderLoc → Prop}
    (hat : SenderAt home away cs j ref c d s p h) (hp : wp (kindContract c i e) p Q h) :
    ∃ tr s' l h', Run Step s tr s' ∧ SenderAt home away cs j ref c d s' (.ret l) h' ∧ Q h' l := by
  refine wp_guided (R := fun s p h => SenderAt home away cs j ref c d s p h) ?_ hp hat
  intro s call k h hat hpre
  exact hat.goes hpre

/-- A sender that has been started comes to its loop. -/
theorem sets_out (hat : SenderAt home away cs j ref c d s (spawnSenderThread .entry) h) (hsent : h.sent = []) :
    ∃ tr s' env h', Run Step s tr s' ∧ SenderAt home away cs j ref c d s' (.ret (.loop env)) h' ∧
      env.fd = h'.socket ∧ h'.connected = true ∧ h'.packets = [] := by
  obtain ⟨tr, s', _, h', hrun, hat', env, rfl, hdone⟩ :=
    hat.runs (Sender.setup_kind (i := 0) (e := InputPacket.zero.ie) hsent)
  exact ⟨tr, s', env, h', hrun, hat', hdone⟩

/-- **It forwards an event**, and comes back. -/
theorem forwards_one {env : SenderEnv} (hat : SenderAt home away cs j ref c d s (.ret (.loop env)) h)
    (hsocket : env.fd = h.socket) (hi : i < c.count) (e : InputEvent) :
    ∃ tr s' h', Run Step s tr s' ∧ SenderAt home away cs j ref c d s' (.ret (.loop env)) h' ∧
      Further h h' [⟨BitVec.ofNat 32 i, e⟩] := by
  have hsynced : Synced c env h := hat.label
  obtain ⟨e₁, s₁, hstep₁, hat₁⟩ := hat.jumps
  obtain ⟨tr₂, s₂, _, _, hrun₂, hat₂, rfl, rfl⟩ := hat₁.runs (Sender.loop_kind (i := i) (e := e) env)
  obtain ⟨e₃, s₃, hstep₃, hat₃⟩ := hat₂.jumps
  obtain ⟨tr₄, s₄, _, h₄, hrun₄, hat₄, hmore, rfl⟩ := hat₃.runs (Sender.round_kind (e := e) hsynced hi hsocket)
  obtain ⟨e₅, s₅, hstep₅, hat₅⟩ := hat₄.jumps
  obtain ⟨tr₆, s₆, _, _, hrun₆, hat₆, rfl, rfl⟩ := hat₅.runs (Sender.check_kind (i := i) (e := e) env)
  have hrun := (hrun₂.append (Run.cons hstep₃ hrun₄)).append (Run.cons hstep₅ hrun₆)
  exact ⟨_, s₆, _, Run.cons hstep₁ hrun, hat₆, hmore⟩

/-- **It forwards any events**, one after the other. -/
theorem forwards_all {env : SenderEnv} {ps : List InputPacket} (hps : ∀ q ∈ ps, q.devId.toNat < c.count)
    (hat : SenderAt home away cs j ref c d s (.ret (.loop env)) h) (hsocket : env.fd = h.socket) :
    ∃ tr s' h', Run Step s tr s' ∧ SenderAt home away cs j ref c d s' (.ret (.loop env)) h' ∧ Further h h' ps := by
  induction ps generalizing s h with
  | nil => exact ⟨[], s, h, .nil, hat, .refl h⟩
  | cons q ps ih =>
      obtain ⟨tr₁, s₁, h₁, hrun₁, hat₁, hone⟩ := hat.forwards_one hsocket (hps q List.mem_cons_self) q.ie
      rw [BitVec.ofNat_toNat, BitVec.setWidth_eq] at hone
      obtain ⟨tr₂, s₂, h₂, hrun₂, hat₂, hrest⟩ :=
        ih (fun q' hq' => hps q' (List.mem_cons_of_mem _ hq')) hat₁ (hsocket.trans hone.socket.symm)
      exact ⟨_, s₂, h₂, hrun₁.append hrun₂, hat₂, hone.trans hrest⟩

end SenderAt

end Link

/-! ## A connection that is made welcome -/

/-- How far the daemon has come with a connection. -/
inductive Stage where
  | coming
  | accepted
  | heard
  | served
  deriving DecidableEq

/-- The peer then. -/
def Stage.peer (p : Peer) : Stage → Peer
  | .coming         => p
  | .accepted       => { p with accepted := true }
  | .heard | .served => { p with accepted := true, received := 1 }

/-- The calls of the main thread for the connection `j` of a sender with config `c`, the next to be accepted, as long as
    not all listeners are in use. -/
def welcomeContract (c : SenderConfig) (j : Nat) : Contract serverI Stage where
  pre g call := match call with
    | .accept                => g = .coming
    | .recvConn fd           => g = .accepted ∧ fd = j
    | .createListener _ args => g = .heard ∧ args.sockfd = j
    | .incrNumConns          => g = .served
    | call                   => g = .heard ∧ call.ForInput
  post g call r g' := match call, r with
    | .accept, fd            => fd = (j : Int) ∧ g' = .accepted
    | .recvConn _, r         => (r.bytes = c.hello ∧ 0 ≤ r.ret) ∧ g' = .heard
    | .numConns, n           => n < maxConnections ∧ g' = g
    | .createListener _ _, _ => g' = .served
    | _, _                   => g' = g

variable {c : SenderConfig} {j : Nat}

theorem acceptInput_welcome (conn : Bytes) :
    wp (welcomeContract c j) (acceptInput j conn) (fun g _ => g = .served) .heard := by
  refine ⟨⟨rfl, trivial⟩, ?_⟩
  rintro n _ ⟨hroom, rfl⟩
  show wp _ (if maxConnections ≤ n then _ else _) _ _
  rw [if_neg (Nat.not_le.mpr hroom)]
  refine ⟨⟨rfl, trivial⟩, ?_⟩
  rintro _ _ rfl
  show wp _ (findSlot n 0 0 >>= _) _ _
  refine wp_seq (wp_findSlot (C := welcomeContract c j) (fun i => ⟨⟨rfl, trivial⟩, fun _ _ h => h⟩) n 0 0) ?_
  rintro _ slot rfl
  refine wp_seq (wp_createDevices (fun call hcall => ?_) j conn _ 0 []) ?_
  · cases call with
    | openUinput | devSetup _ _ | devCreate _ => exact ⟨⟨rfl, trivial⟩, fun _ _ h => h⟩
    | _ => exact hcall.elim
  rintro _ devices rfl
  refine ⟨⟨rfl, trivial⟩, ?_⟩
  rintro _ _ rfl
  refine ⟨⟨rfl, rfl⟩, ?_⟩
  rintro _ _ rfl
  refine ⟨rfl, ?_⟩
  rintro _ _ rfl
  exact rfl

/-- **A round of the accept loop** gives the connection a listener. -/
theorem acceptOne_welcome (conn args : Bytes) :
    wp (welcomeContract c j) (acceptOne conn args) (fun g _ => g = .served) .coming := by
  refine ⟨rfl, ?_⟩
  rintro fd _ ⟨hfd, rfl⟩
  have hnot : ¬ fd < (0 : Int) := by
    rw [hfd]
    exact Int.not_lt.mpr (Int.natCast_nonneg j)
  show wp _ (if fd < 0 then _ else _) _ _
  rw [if_neg hnot]
  refine ⟨⟨rfl, hfd⟩, ?_⟩
  rintro r _ ⟨⟨hbytes, hpos⟩, rfl⟩
  show wp _ (if r.ret < 0 then _ else _) _ _
  rw [if_neg (Int.not_lt.mpr hpos), hbytes, overlay, acceptConn, c.typeAt_hello, hfd]
  exact wp_seq (acceptInput_welcome _) fun _ _ h => h

/-- The sender has connected and announced itself, and the daemon has not noticed. -/
structure Calling (c : SenderConfig) (p : Peer) : Prop where
  connected : p.connected = true
  waiting   : p.accepted = false ∧ p.received = 0
  hello     : p.sent[0]? = some c.hello

namespace Net

variable {s : Net} {p : Peer} {g : Stage}

/-- The events of the daemon in a run of the net. -/
def daemonOf : NetEvent → Option Event
  | .daemon e => some e
  | .peer _ _ => none

/-- **A run of the net is one of its daemon.** -/
theorem daemon_run {s' : Net} {tr : List NetEvent} (h : Run Step s tr s') :
    Run Daemon.Step s.daemon (tr.filterMap daemonOf) s'.daemon := by
  refine h.project (f := Net.daemon) (fun a e b hs he => ?_) fun a e b d hs he => ?_
  · cases e with
    | daemon e => cases he
    | peer j act =>
        obtain ⟨-, -, -, -, -, -, rfl⟩ := step_peer hs
        rfl
  · cases e with
    | daemon e => exact Option.some.inj he ▸ (step_daemon hs).1
    | peer j act => cases he

/-- The listeners stay, with their arguments. -/
theorem args_run {s' : Net} {tr : List NetEvent} (h : Run Step s tr s') : s.args <+: s'.args := by
  refine h.invariant (I := fun n : Net => s.args <+: n.args) (List.prefix_refl _) fun a e b hpre hs => ?_
  cases e with
  | daemon e =>
      rw [args_step (step_daemon hs).1]
      exact hpre.trans (List.prefix_append _ _)
  | peer j act =>
      obtain ⟨-, -, -, -, -, -, rfl⟩ := step_peer hs
      exact hpre

/-- The calls of the round can be answered so, once the mutex is free. -/
theorem welcome_possible {call : ServerCall} (hpre : (welcomeContract c j).pre g call) (hcalling : Calling c p)
    (hpeer : s.peers[j]? = some (g.peer p)) (hroom : g ≠ .served → s.daemon.numConns < maxConnections)
    (hlock : call = .lockListener → s.daemon.listenerMutex = none)
    (hunlock : call = .unlockListener → s.daemon.listenerMutex = some .main) :
    ∃ (r : call.Resp) (sh : Shared) (ps : List Peer) (g' : Stage), s.daemon.serverEffect call r = some sh ∧
      deliver s.daemon s.peers (.main (.did call r)) = some ps ∧ (welcomeContract c j).post g call r g' ∧
      ps[j]? = some (g'.peer p) ∧ (g' ≠ .served → g ≠ .served ∧ sh.numConns = s.daemon.numConns) ∧
      (sh.listenerMutex = s.daemon.listenerMutex ∨ sh.listenerMutex = none ∨ sh.listenerMutex = some .main) := by
  have hlt : j < s.peers.length := (List.getElem?_eq_some_iff.mp hpeer).1
  obtain ⟨hacc, hrec⟩ := hcalling.waiting
  cases call with
  | accept =>
      obtain rfl : g = .coming := hpre
      refine ⟨(j : Int), _, s.peers.set j { p with accepted := true }, .accepted, rfl, ?_, ⟨rfl, rfl⟩,
        List.getElem?_set_self hlt, fun _ => ⟨by decide, rfl⟩, .inl rfl⟩
      have hopen : p.connected = true ∧ ¬ p.accepted = true := ⟨hcalling.connected, by simp [hacc]⟩
      simp only [deliver, peerAt_natCast, hpeer, Stage.peer, if_pos hopen, Int.toNat_natCast]
  | recvConn fd =>
      obtain ⟨rfl, rfl⟩ := hpre
      let r : ReadResult NewConnection.size := .data c.hello c.hello_length.le
      have hpos : 0 ≤ r.ret := Int.natCast_nonneg _
      refine ⟨r, _, s.peers.set j { p with accepted := true, received := 1 }, .heard, rfl, ?_, ⟨⟨rfl, hpos⟩, rfl⟩,
        List.getElem?_set_self hlt, fun _ => ⟨by decide, rfl⟩, .inl rfl⟩
      have htake : Peer.take { p with accepted := true } c.hello = some { p with accepted := true, received := 1 } := by
        rw [Peer.take, if_pos ⟨rfl, by rw [hrec]; exact hcalling.hello⟩, hrec]
      have hsome : (peerAt s.peers j).isSome = true := by rw [peerAt_natCast, hpeer]; rfl
      have hreceive : receive s.peers j c.hello = some (s.peers.set j { p with accepted := true, received := 1 }) := by
        rw [receive, peerAt_natCast, hpeer, Option.bind_some, Int.toNat_natCast, Stage.peer, htake]
        rfl
      simp only [deliver, if_neg (Int.not_lt.mpr hpos), if_pos hsome]
      exact hreceive
  | numConns =>
      obtain ⟨rfl, -⟩ := hpre
      exact ⟨s.daemon.numConns, _, s.peers, .heard, Shared.check_eq.mpr ⟨by simp, rfl⟩, rfl,
        ⟨hroom (by decide), rfl⟩, hpeer, fun _ => ⟨by decide, rfl⟩, .inl rfl⟩
  | lockListener =>
      obtain ⟨rfl, -⟩ := hpre
      exact ⟨(), _, s.peers, .heard, Shared.lockListener_eq.mpr ⟨hlock rfl, rfl⟩, rfl, rfl, hpeer,
        fun _ => ⟨by decide, rfl⟩, .inr (.inr rfl)⟩
  | unlockListener =>
      obtain ⟨rfl, -⟩ := hpre
      exact ⟨(), _, s.peers, .heard, Shared.unlockListener_eq.mpr ⟨hunlock rfl, rfl⟩, rfl, rfl, hpeer,
        fun _ => ⟨by decide, rfl⟩, .inr (.inl rfl)⟩
  | connection i =>
      obtain ⟨rfl, -⟩ := hpre
      exact ⟨s.daemon.connections.getD i 0, _, s.peers, .heard, Shared.check_eq.mpr ⟨by simp, rfl⟩, rfl, rfl, hpeer,
        fun _ => ⟨by decide, rfl⟩, .inl rfl⟩
  | openUinput =>
      obtain ⟨rfl, -⟩ := hpre
      have hnot : ¬ (s.daemon.uinput.length : Int) < 0 := Int.not_lt.mpr (Int.natCast_nonneg _)
      have hopen : s.daemon.serverEffect .openUinput (s.daemon.uinput.length : Int) =
          some { s.daemon.toShared with uinput := s.daemon.uinput ++ [⟨[], false, []⟩] } := by
        simp only [Shared.serverEffect, if_neg hnot, if_true]
      have hdel : deliver s.daemon s.peers (.main (.did .openUinput (s.daemon.uinput.length : Int))) =
          some s.peers := by
        simp only [deliver, if_pos (Int.natCast_nonneg s.daemon.uinput.length)]
      exact ⟨_, _, s.peers, .heard, hopen, hdel, rfl, hpeer, fun _ => ⟨by decide, rfl⟩, .inl rfl⟩
  | devSetup fd name | devCreate fd =>
      obtain ⟨rfl, -⟩ := hpre
      exact ⟨(), _, s.peers, .heard, rfl, rfl, rfl, hpeer, fun _ => ⟨by decide, rfl⟩, .inl rfl⟩
  | createListener slot args =>
      obtain ⟨rfl, -⟩ := hpre
      exact ⟨(), _, s.peers, .served, rfl, rfl, rfl, hpeer, fun hne => absurd rfl hne, .inl rfl⟩
  | incrNumConns =>
      obtain rfl : g = .served := hpre
      exact ⟨(), _, s.peers, .served, rfl, rfl, rfl, hpeer, fun hne => absurd rfl hne, .inl rfl⟩
  | _ => exact hpre.2.elim

end Net

namespace Link

variable {home away : Config × Bytes × Bytes} {cs : List SenderConfig} {s : Link} {p : Peer} {d : Daemon} {g : Stage}

/-- The main thread away has `prog` left of its round, in which it has come to stage `g` with the `j`-th peer. At home
    nothing has happened. -/
structure WelcomeAt (home away : Config × Bytes × Bytes) (cs : List SenderConfig) (j : Nat) (p : Peer) (d : Daemon)
    (s : Link) (prog : Prog serverI ServerLoc) (g : Stage) : Prop where
  reach    : ∃ tr, Run Step (init home away cs) tr s
  same     : s.home = d
  alive    : s.away.daemon.exited = false
  main     : s.away.daemon.main.rest = prog
  mutex    : s.away.daemon.listenerMutex = none ∨ s.away.daemon.listenerMutex = some .main
  room     : g ≠ .served → s.away.daemon.numConns < maxConnections
  peer     : s.away.peers[j]? = some (g.peer p)
  listener : g = .served → ∃ (m : Nat) (l : ListenerThread),
    s.away.daemon.listeners[m]? = some l ∧ l.args.sockfd = j ∧ Reading l.thread

/-- **Step lemma.** The main thread goes on. -/
theorem WelcomeAt.goes {call : ServerCall} {k : call.Resp → Prog serverI ServerLoc}
    (hat : WelcomeAt home away cs j p d s (.call (I := serverI) call k) g) (hcalling : Calling c p)
    (hpre : (welcomeContract c j).pre g call) :
    ∃ (r : call.Resp) (g' : Stage) (ev : LinkEvent) (s' : Link), (welcomeContract c j).post g call r g' ∧
      Step s ev s' ∧ WelcomeAt home away cs j p d s' (k r) g' := by
  obtain ⟨tr, hrun⟩ := hat.reach
  have hmutex : lobbyMutex.pre (decide (s.away.daemon.listenerMutex = some .main)) call :=
    ((Daemon.tableInv_run (Net.daemon_run (net_run hrun))).main.of_call hat.main).1
  have hlock : call = .lockListener → s.away.daemon.listenerMutex = none := by
    rintro rfl
    exact hat.mutex.resolve_right (of_decide_eq_false hmutex)
  have hunlock : call = .unlockListener → s.away.daemon.listenerMutex = some .main := by
    rintro rfl
    exact of_decide_eq_true hmutex
  obtain ⟨r, sh, ps, g', hsh, hdel, hpost, hpeer, hroom, hafter⟩ :=
    Net.welcome_possible hpre hcalling hat.peer hat.room hlock hunlock
  have hmain := Daemon.can_call hat.alive hat.main hsh
  have hnet := Net.main_possible hmain hdel
  have hstep := away_possible hnet
  refine ⟨r, g', _, _, hpost, hstep, ⟨_, hrun.snoc hstep⟩, hat.same, hat.alive, rfl, ?_, ?_, hpeer, ?_⟩
  · rcases hafter with heq | hafter
    · exact heq ▸ hat.mutex
    · exact hafter
  · intro hne
    obtain ⟨hbefore, hcount⟩ := hroom hne
    exact hcount ▸ hat.room hbefore
  · rintro rfl
    by_cases hserved : g = .served
    · -- the listener that was there already
      obtain ⟨m, l, hl, hsock, hreading⟩ := hat.listener hserved
      exact ⟨m, l, (List.getElem?_append_left (List.getElem?_eq_some_iff.mp hl).1).trans hl, hsock, hreading⟩
    · cases call with
      | createListener slot args =>
          exact ⟨_, _, List.getElem?_concat_length, hpre.2, _, .inr (.inl rfl)⟩
      | accept => cases hpost.2
      | recvConn fd => cases hpost.2
      | numConns => exact absurd hpost.2.symm hserved
      | incrNumConns => exact absurd hpre hserved
      | _ => exact absurd hpost.symm hserved

/-- **The connection gets a listener.** -/
theorem WelcomeAt.welcomes {prog : Prog serverI ServerLoc}
    (hat : WelcomeAt home away cs j p d s prog g) (hcalling : Calling c p)
    (hp : wp (welcomeContract c j) prog (fun g' _ => g' = .served) g) :
    ∃ tr s' l, Run Step s tr s' ∧ WelcomeAt home away cs j p d s' (.ret l) .served := by
  obtain ⟨tr, s', l, _, hrun, hat', rfl⟩ :=
    wp_guided (R := fun s prog g => WelcomeAt home away cs j p d s prog g)
      (fun s call k g hat hpre => hat.goes hcalling hpre) hp hat
  exact ⟨tr, s', l, hrun, hat'⟩

end Link

/-! ## What the devices have got -/

namespace Net

variable {cs : List SenderConfig} {s : Net} {m i : Nat} {args : ListenerArgs} {host : Host}
  {t : Thread senderI SenderLoc}

/-- A listener that has read all there is has written it. -/
theorem Flow.settled (hflow : Flow cs m j args (host, c, t) 0 s) (hat : Flow.AtRead m s) (hi : i < c.count) :
    ∃ (device : VirtualDevice) (u : UInputDev), args.devices[i]? = some device ∧
      s.daemon.uinput[device.devfd.toNat]? = some u ∧ u.name = deviceName (c.name i) ∧
      u.log = eventsOf i host.packets := by
  obtain ⟨d, packet, hd, hread⟩ := hat
  obtain ⟨d', hd', rfl, -⟩ := hflow.listener
  obtain rfl : d = d' := Option.some.inj (hd.symm.trans hd')
  obtain ⟨p, hp, hsender, hleft⟩ := hflow.peer
  obtain ⟨rfl, rfl, -⟩ : p.toHost = host ∧ p.config = c ∧ p.thread = t := by simpa [Peer.sender] using hsender
  obtain ⟨k, q, g, hs⟩ := hflow.inv.served m d hd
  obtain rfl : k = j := Int.natCast_inj.mp (hs.sockfd.symm.trans hflow.socket)
  obtain rfl : p = q := Option.some.inj (hp.symm.trans hs.peer)
  have hpi := hflow.inv.peers p (List.mem_of_getElem? hp)
  obtain ⟨u, hu, hname, -, hlog⟩ := hs.devices i hi
  have hheld : Listener.held d.thread = [] := by
    rw [Listener.held, hread]
    rfl
  have hflight : p.inFlight = [] := by
    rw [Peer.inFlight, List.drop_eq_nil_of_le (show p.sent.length ≤ p.received from hleft.le)]
    rfl
  refine ⟨_, u, hs.device hi, hu, hname, ?_⟩
  calc u.log = eventsOf i (g.flatMap Wire.writeOf) := hlog
    _ = eventsOf i (Wire.decoded (g.flatMap Wire.readOf)) := by
        rw [Listener.held_of_ok hs.ok, hheld, List.append_nil]
    _ = eventsOf i p.packets := by
        rw [packets_split hs.greeted hpi.bound, hflight, List.append_nil, hs.heard]

end Net

/-! ## The switch -/

namespace Link

variable {home away : Config × Bytes × Bytes} {cs : List SenderConfig} {s : Link} {tr : List LinkEvent}

/-- Both daemons wait for connections, no mutex is held, and at home the flag is 0. -/
structure Idle (s : Link) : Prop where
  home_alive : s.home.exited = false
  home_main  : ∃ conn args, s.home.main = .start runServer (.loop conn args)
  off        : s.home.sending = false
  home_mutex : s.home.senderMutex = none
  away_alive : s.away.daemon.exited = false
  away_main  : ∃ conn args, s.away.daemon.main = .start runServer (.loop conn args)
  away_mutex : s.away.daemon.listenerMutex = none

/-- The peer of the sender that is created next has done nothing yet. -/
theorem next_peer (h : Run Step (init home away cs) tr s) (hc : cs[s.home.senders.length]? = some c) :
    ∃ p, s.away.peers[s.home.senders.length]? = some p ∧ p = .start c := by
  have hget := congrArg (·[s.home.senders.length]?) (Net.inv_run (net_run h)).configs
  simp only [List.getElem?_map, hc] at hget
  obtain ⟨p, hp, rfl⟩ := Option.map_eq_some_iff.mp hget
  exact ⟨p, hp, fresh_run h _ p (Nat.le_refl _) hp⟩

/-- After a START at home the new sender, the `j`-th, is about to begin, and nobody away has heard of it. -/
theorem started (h : Run Step (init home away cs) tr s) (hidle : Idle s)
    (hconfig : s.home.configs[s.home.config]? = some ⟨c.toConfig, false⟩)
    (hc : cs[s.home.senders.length]? = some c) :
    ∃ tr' s', Run Step s tr' s' ∧ SenderAt home away cs s.home.senders.length s.home.config c s.away.daemon s'
      (spawnSenderThread .entry) .init := by
  obtain ⟨conn, args, hmain⟩ := hidle.home_main
  obtain ⟨htr, d, hstart, hof, halive, hsending, hmutex, hconfigs, hsenders⟩ :=
    Daemon.start_possible hidle.home_alive hmain hidle.off hidle.home_mutex
  obtain ⟨tr', hrun⟩ := home_alone (n := s.away) hstart hof
  obtain ⟨p, hp, rfl⟩ := next_peer h hc
  refine ⟨tr', _, hrun, ⟨_, h.append hrun⟩, halive, hsending, Or.inl hmutex, hconfigs ▸ hconfig, ?_, ?_, rfl⟩
  · exact ⟨_, by rw [hsenders]; exact List.getElem?_concat_length, rfl⟩
  · exact ⟨_, hp, rfl, rfl, rfl, rfl, rfl⟩

/-- There is a way on in which the events `ps` of the sender with config `c` that is created next are written to virtual
    devices of the same names. -/
def CanForward (s : Link) (c : SenderConfig) (ps : List InputPacket) : Prop :=
  ∃ tr' s', Run Step s tr' s' ∧ s'.home.sending = true ∧
    ∃ l ∈ s'.away.daemon.listeners, l.args.sockfd = s.home.senders.length ∧ ∀ i < c.count,
      ∃ (device : VirtualDevice) (u : UInputDev), l.args.devices[i]? = some device ∧
        s'.away.daemon.uinput[device.devfd.toNat]? = some u ∧ u.name = devPrefix ++ c.name i ∧ u.log = eventsOf i ps

/-- As long as there is room for a listener they can be. -/
theorem can_forward (h : Run Step (init home away cs) tr s) (hidle : Idle s)
    (hconfig : s.home.configs[s.home.config]? = some ⟨c.toConfig, false⟩)
    (hc : cs[s.home.senders.length]? = some c) {ps : List InputPacket} (hps : ∀ q ∈ ps, q.devId.toNat < c.count)
    (hroom : s.away.daemon.numConns < maxConnections) : CanForward s c ps := by
  obtain ⟨tr₁, s₁, hrun₁, hat₁⟩ := started h hidle hconfig hc
  obtain ⟨tr₂, s₂, env, h₂, hrun₂, hat₂, hsocket, hconn, hnone⟩ := hat₁.sets_out rfl
  obtain ⟨tr₃, s₃, h₃, hrun₃, hat₃, hmore⟩ := hat₂.forwards_all hps hsocket
  have hforwards : Forwards c h₃ := (show Synced c env h₃ from hat₃.label).toForwards
  have hpackets : h₃.packets = ps := by rw [hmore.packets, hnone, List.nil_append]
  -- the daemon away has not moved, and turns to the connection now
  obtain ⟨p, hp, hhost, hpc, -, hacc, hrec⟩ := hat₃.peer
  have hcalling : Calling c p :=
    ⟨by rw [hhost, hmore.connected, hconn], ⟨hacc, hrec⟩, by rw [hhost, hforwards.framed]; rfl⟩
  obtain ⟨conn, args, hmain⟩ := hidle.away_main
  have hwelcome : WelcomeAt home away cs s.home.senders.length p s₃.home s₃ (acceptOne conn args) .coming :=
    ⟨hat₃.reach, rfl, by rw [hat₃.daemon]; exact hidle.away_alive, by rw [hat₃.daemon, hmain]; rfl,
      Or.inl (by rw [hat₃.daemon]; exact hidle.away_mutex), fun _ => by rw [hat₃.daemon]; exact hroom, hp, nofun⟩
  obtain ⟨tr₄, s₄, l₄, hrun₄, hat₄⟩ := hwelcome.welcomes hcalling (acceptOne_welcome conn args)
  obtain ⟨tr, hreach⟩ := hat₄.reach
  obtain ⟨m, d, hd, hsock, hreading⟩ := hat₄.listener rfl
  have hlen : p.sent.length = 1 + ps.length := by
    rw [hhost, hforwards.framed, hpackets, List.length_cons, List.length_map, Nat.add_comm]
  have hflow : Net.Flow cs m s.home.senders.length d.args (h₃, c, p.thread) ps.length s₄.away :=
    ⟨Net.inv_run (net_run hreach), hat₄.alive, ⟨d, hd, rfl, hreading⟩, hsock,
      _, hat₄.peer, by rw [← hhost, ← hpc]; rfl, hlen⟩
  obtain ⟨tr₅, n, hrun₅, hof, hflow', hread⟩ := hflow.drain
  obtain ⟨tr₅', hrun₅'⟩ := away_alone (d := s₄.home) hrun₅ hof
  obtain ⟨d', hd', hargs, -⟩ := hflow'.listener
  have hrun := (hrun₁.append hrun₂).append (hrun₃.append (hrun₄.append hrun₅'))
  refine ⟨_, _, hrun, ?_, d', List.mem_of_getElem? hd', ?_, ?_⟩
  · show s₄.home.sending = true
    rw [hat₄.same]
    exact hat₃.sending
  · rw [hargs]
    exact hsock
  · intro i hi
    obtain ⟨device, u, hdev, hu, hname, hlog⟩ := hflow'.settled hread hi
    exact ⟨device, u, by rw [hargs]; exact hdev, hu, hname, by rw [hlog, hpackets]⟩

/-- **A full table stays as it is**, even when nobody is alive in it. -/
theorem args_full {s' : Link} {tr' : List LinkEvent} (h : Run Step (init home away cs) tr s)
    (hfull : maxConnections ≤ s.away.daemon.numConns) (h' : Run Step s tr' s') : s'.away.args = s.away.args := by
  have hcount := (Daemon.countInv_run (Net.daemon_run (net_run h))).count
  have hcount' := (Daemon.countInv_run (Net.daemon_run (net_run (h.append h')))).count
  refine ((Net.args_run (net_run h')).eq_of_length_le ?_).symm
  rw [Net.args, Net.args, List.length_map, List.length_map]
  omega

/-- **The switch can be switched on**, but only `maxConnections` times. Let both daemons be idle, with the config `c`
    loaded at home. Then a START at home has a way on in which its sender connects to the other side and is given a
    listener, and any events of its devices, in any order, are written to the virtual devices of the same names, if and
    only if fewer than `maxConnections` listeners have ever been created away. -/
theorem switches_on_iff (h : Run Step (init home away cs) tr s) (hidle : Idle s)
    (hconfig : s.home.configs[s.home.config]? = some ⟨c.toConfig, false⟩)
    (hc : cs[s.home.senders.length]? = some c) {ps : List InputPacket} (hps : ∀ q ∈ ps, q.devId.toNat < c.count) :
    CanForward s c ps ↔ s.away.daemon.numConns < maxConnections := by
  refine ⟨?_, can_forward h hidle hconfig hc hps⟩
  rintro ⟨tr', s', hrun, -, l, hl, hsock, -⟩
  by_contra hfull
  have hargs := args_full h (Nat.not_lt.mp hfull) hrun
  have hmem : (s.home.senders.length : Int) ∈ s.away.args.map (·.sockfd) := by
    rw [← hargs, ← hsock]
    exact List.mem_map_of_mem (List.mem_map_of_mem hl)
  -- so its connection would have a listener before it is made
  obtain ⟨p, hp, hstart⟩ := next_peer h hc
  have hacc := ((Net.inv_run (net_run h)).of_socket hp hmem).1
  rw [hstart] at hacc
  exact Bool.false_ne_true hacc

/-- Both daemons at the head of their loops. -/
def booted : Link where
  home := { Daemon.init Net.oneDevice.toConfig [] [] with main := .start runServer (.loop [] []) }
  away := ⟨{ Daemon.init Daemon.emptyConfig [] [] with main := .start runServer (.loop [] []) }, [.start Net.oneDevice]⟩

theorem booted_run : Run Step (init (Net.oneDevice.toConfig, [], []) (Daemon.emptyConfig, [], []) [Net.oneDevice])
    ((Daemon.boot).map .home ++ (Daemon.boot).map .away) booted :=
  Run.of_execs rfl

/-- Two events of one device. -/
theorem switches_on_iff_two : ∃ (s : Link) (tr : List LinkEvent), Run Step booted tr s ∧ s.home.sending = true ∧
    ∃ u ∈ s.away.daemon.uinput, u.name = devPrefix ++ [109] ∧ u.log = [Net.oneEvent, Net.oneEvent] := by
  have hidle : Idle booted :=
    ⟨rfl, ⟨_, _, rfl⟩, rfl, rfl, rfl, ⟨_, _, rfl⟩, rfl⟩
  have hps : ∀ q ∈ List.replicate 2 Net.onePacket, q.devId.toNat < Net.oneDevice.count := by
    intro q hq
    rw [List.eq_of_mem_replicate hq]
    decide
  have hroom : booted.away.daemon.numConns < maxConnections := by decide
  obtain ⟨tr, s, hrun, hsending, l, -, -, hdevs⟩ :=
    (switches_on_iff booted_run hidle (c := Net.oneDevice) rfl rfl hps).mpr hroom
  obtain ⟨device, u, -, hu, hname, hlog⟩ := hdevs 0 (by decide)
  exact ⟨s, tr, hrun, hsending, u, List.mem_of_getElem? hu, hname, hlog⟩

end Link

end IOSwitch
