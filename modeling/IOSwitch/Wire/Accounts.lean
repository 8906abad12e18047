import IOSwitch.Wire.Route

/-!
# `Wire.Accounts` — where every event is

An event that a sender has read is in one of five places: in the sender's hand (it is about to send the packet), lost
(the `send` failed), on its way, in the listener's hand (it is about to write it), or in the log of the virtual device.
`accounted` says that the five, in this order from the back, are what was read from the device, event for event; and a
sender loses one packet at most, because it leaves its loop then.

## Contents
- `lostIn`, `ledgerContract` — the ledger of a sender: its host and the packets it has lost.
- `Sender.ledger_verified`, `Balanced` — it balances at every call.
- `Net.Ledger`, `Net.ledger_run` — likewise in a net.
- `Net.accounted`.
-/

namespace IOSwitch

open Lib Server

/-! ## The ledger of a sender -/

/-- The packet that a call has failed to send. -/
def lostIn : Sigma senderI.Resp → List InputPacket
  | ⟨.send _ packet, r⟩ => if r < 0 then [packet] else []
  | _                   => []

/-- What was read is what was sent, and what was lost. -/
structure Balanced (h : Host) (lost : List InputPacket) : Prop where
  one : lost.length ≤ 1
  all : ∀ i, eventsOf i (h.packets ++ lost) = h.logOf i

/-- What the ledger is when `call` is made: the packet of a `send` is the only one that is missing. The `i`-th device is
    read from the `i`-th file. -/
def LedgerAt (h : Host) (lost : List InputPacket) : SenderCall → Prop
  | .read i fd      => Balanced h lost ∧ fd = i ∧ i < h.files.length
  | .send fd packet => fd = h.socket ∧ h.sent ≠ [] ∧ lost = [] ∧ ∀ i, eventsOf i (h.packets ++ [packet]) = h.logOf i
  | _               => Balanced h lost

/-- The calls of a sender with config `c`, with the packets it has lost. -/
def ledgerContract (c : SenderConfig) : Contract senderI (Host × List InputPacket) where
  pre g call       := LedgerAt g.1 g.2 call
  post g call r g' := g.1.effect c.toConfig call r = some g'.1 ∧ g'.2 = g.2 ++ lostIn ⟨call, r⟩

theorem ledger_post {c : SenderConfig} {h : Host} {lost : List InputPacket} {call : SenderCall} {r : call.Resp}
    {g' : Host × List InputPacket} (hp : (ledgerContract c).post (h, lost) call r g') :
    ∃ h', h.effect c.toConfig call r = some h' ∧ g' = (h', lost ++ lostIn ⟨call, r⟩) :=
  ⟨g'.1, hp.1, Prod.ext rfl hp.2⟩

theorem lostIn_other {call : SenderCall} {r : call.Resp} (hcall : ∀ fd packet, call ≠ .send fd packet) :
    lostIn ⟨call, r⟩ = [] := by
  cases call with
  | send fd packet => exact absurd rfl (hcall fd packet)
  | _ => rfl

/-- Nothing is lost at a call that does not send. -/
theorem ledger_quiet {c : SenderConfig} {h : Host} {lost : List InputPacket} {call : SenderCall} {r : call.Resp}
    {g' : Host × List InputPacket} (hp : (ledgerContract c).post (h, lost) call r g')
    (hcall : ∀ fd packet, call ≠ .send fd packet) : ∃ h', h.effect c.toConfig call r = some h' ∧ g' = (h', lost) := by
  obtain ⟨h', he, rfl⟩ := ledger_post hp
  exact ⟨h', he, by rw [lostIn_other hcall, List.append_nil]⟩

/-- Between rounds nothing is missing, and packets go to the socket. -/
structure Whole (c : SenderConfig) (env : SenderEnv) (h : Host) (lost : List InputPacket) : Prop
    extends Synced c env h where
  socket : env.fd = h.socket
  none   : lost = []

/-- The invariants of the labels. -/
def BalancedAt (c : SenderConfig) : SenderLoc → Host × List InputPacket → Prop
  | .entry, (h, lost)               => h.sent = [] ∧ h.files = [] ∧ lost = []
  | .loop env, (h, lost)            => Whole c env h lost
  | .round env k, (h, lost)         => Whole c env h lost ∧ k = c.count
  | .check env connected, (h, lost) => Balanced h lost ∧ (connected = true → Whole c env h lost)
  | .leave _, (h, lost)             => Balanced h lost
  | .exited, (h, lost)              => Balanced h lost

theorem Whole.balanced {c : SenderConfig} {env : SenderEnv} {h : Host} {lost : List InputPacket}
    (hw : Whole c env h lost) : Balanced h lost where
  one := by rw [hw.none]; exact Nat.zero_le 1
  all i := by rw [hw.none, List.append_nil]; exact hw.all i

/-- A call that may be made whatever is missing. -/
theorem ledgerAt_of_balanced {h : Host} {lost : List InputPacket} {call : SenderCall} (hb : Balanced h lost)
    (hcall : ¬ call.Forwards) : LedgerAt h lost call := by
  cases call with
  | read i fd => exact absurd trivial hcall
  | send fd packet => exact absurd trivial hcall
  | _ => exact hb

namespace Sender

variable {c : SenderConfig} {h : Host} {lost : List InputPacket}

/-! ### A round -/

/-- **The loop of `send_input_event`.** It ends with a packet lost, or with none. -/
theorem forwardReady_ledger {env : SenderEnv} (revents : List Bool) (n i : Nat) (packet : InputPacket)
    (hn : i + n = c.count) (hw : Whole c env h lost) :
    wp (ledgerContract c) (forwardReady env.deviceFds revents env.fd n i packet)
      (fun g r => Balanced g.1 g.2 ∧ (0 ≤ r → Whole c env g.1 g.2)) (h, lost) := by
  induction n generalizing i packet h lost with
  | zero => exact ⟨hw.balanced, fun _ => hw⟩
  | succ n ih =>
      have hi : i < c.count := by omega
      show wp _ (if revents.getD i false then _ else _) _ _
      split
      · have hfd : env.deviceFds.getD i (-1) = i := hw.toSynced.deviceFd hi
        refine ⟨⟨hw.balanced, hfd, by rw [hw.files_length]; exact hi⟩, ?_⟩
        intro r g' hp
        obtain ⟨h', hread, rfl⟩ := ledger_post hp
        obtain rfl : lost = [] := hw.none
        rw [hfd] at hread
        show wp _ (if r.ret < 0 then _ else _) _ _
        rcases Host.effect_read hread with ⟨hneg, rfl⟩ | ⟨e, hbytes, hpos, rfl⟩
        · rw [if_pos hneg]
          exact ⟨hw.balanced, fun hneg => absurd hneg (by decide)⟩
        · rw [if_neg (by omega), hbytes, InputEvent.fill_bytes]
          -- the event read is the one of the packet to be sent
          have hsync := hw.toSynced.readFrom_send hi e
          have hall : ∀ j, eventsOf j ((h.readFrom (Int.toNat i) e).packets ++ [⟨BitVec.ofNat 32 i, e⟩]) =
              (h.readFrom (Int.toNat i) e).logOf j := by
            intro j
            rw [Int.toNat_natCast, ← Host.packets_push (h := h.readFrom i e) hw.sent_ne_nil, hsync.all j]
            rfl
          refine ⟨⟨hw.socket, hw.sent_ne_nil, rfl, hall⟩, ?_⟩
          intro sent g'' hp
          obtain ⟨h'', hsend, rfl⟩ := ledger_post hp
          show wp _ (if sent ≤ 0 then _ else _) _ _
          rcases Host.sendMessage_eq hsend with ⟨hneg, rfl⟩ | ⟨hpos, rfl⟩
          · rw [if_pos (Int.le_of_lt hneg)]
            refine ⟨⟨?_, fun j => ?_⟩, fun hneg => absurd hneg (by decide)⟩
            · simp [lostIn, hneg]
            · simpa [lostIn, hneg] using hall j
          · have hnot : ¬ sent < 0 := Int.not_lt.mpr hpos
            have hw' : Whole c env ((h.readFrom (Int.toNat i) e).push (InputPacket.encode ⟨BitVec.ofNat 32 i, e⟩))
                ([] ++ [] ++ lostIn ⟨.send env.fd ⟨BitVec.ofNat 32 i, e⟩, sent⟩) :=
              ⟨hsync, hw.socket, by simp [lostIn, hnot]⟩
            split
            · exact ⟨hw'.balanced, fun _ => hw'⟩
            · exact ih (i + 1) _ (by omega) hw'
      · exact ih (i + 1) packet (by omega) hw

/-- **`send_input_event`.** -/
theorem sendInputEvent_ledger {env : SenderEnv} (hw : Whole c env h lost) :
    wp (ledgerContract c) (sendInputEvent c.count env.deviceFds env.fd)
      (fun g r => Balanced g.1 g.2 ∧ (0 ≤ r → Whole c env g.1 g.2)) (h, lost) := by
  refine ⟨hw.balanced, ?_⟩
  intro p g' hp
  obtain ⟨h', hpoll, rfl⟩ := ledger_post hp
  obtain rfl : h = h' := Option.some.inj hpoll
  obtain rfl : lost = [] := hw.none
  show wp _ (if p.ret < 0 then _ else _) _ _
  split
  · exact ⟨hw.balanced, fun hneg => absurd hneg (by decide)⟩
  · exact forwardReady_ledger p.revents c.count 0 .zero (Nat.zero_add _) hw

/-! ### The part before the loop -/

/-- `setup` makes a socket, and the loop gets its descriptor. No device is read before. -/
theorem setup_socket : ∃ k : Int → Prog senderI SenderLoc, setup = .call .socket k ∧
    ∀ fd, (k fd).Within (fun call : SenderCall => ¬ call.Forwards ∧ call ≠ .socket)
      fun l => l.afterSetup ∧ ∀ env, l = .loop env → env.fd = fd := by
  have hout : ∀ {fd : Int}, SenderLoc.exited.afterSetup ∧ ∀ env, SenderLoc.exited = .loop env → env.fd = fd :=
    ⟨trivial, by rintro _ ⟨⟩⟩
  refine ⟨_, rfl, ?_⟩
  intro fd
  show Prog.Within _ _ (if fd < 0 then _ else _)
  split
  · exact hout
  refine ⟨⟨id, nofun⟩, fun _ => ⟨⟨id, nofun⟩, fun config => ?_⟩⟩
  show Prog.Within _ _ (connectToServer _ _ _ >>= _)
  refine Prog.within_bind ((connectToServer_connects _ _ _).mono (fun call hc => ?_) fun _ h => h) fun r _ => ?_
  · cases call <;> first | exact hc.elim | exact ⟨id, nofun⟩
  show Prog.Within _ _ (if r < 0 then _ else _)
  split
  · exact ⟨⟨id, nofun⟩, fun _ => hout⟩
  refine ⟨⟨id, nofun⟩, fun _ => ⟨⟨id, nofun⟩, fun config => ⟨⟨id, nofun⟩, fun _ => ⟨⟨id, nofun⟩, fun config => ?_⟩⟩⟩⟩
  show Prog.Within _ _ (openDevices _ _ _ _ _ >>= _)
  refine Prog.within_bind ((openDevices_opens _ _ _ _ _).mono (fun call hc => ?_) fun _ h => h) fun opened _ => ?_
  · cases call <;> first | exact hc.elim | exact ⟨id, nofun⟩
  cases opened with
  | none => exact ⟨⟨id, nofun⟩, fun _ => hout⟩
  | some connFds =>
      refine ⟨⟨id, nofun⟩, fun _ => ⟨⟨id, nofun⟩, fun sent => ?_⟩⟩
      show Prog.Within _ _ (if sent < 0 then _ else _)
      split
      · exact hout
      · exact ⟨⟨id, nofun⟩, fun _ => ⟨trivial, by rintro _ ⟨⟩; rfl⟩⟩

/-- What has been read stays so until something else is read. -/
theorem logOf_effect {call : SenderCall} {r : call.Resp} {h' : Host} (hcall : ∀ i fd, call ≠ .read i fd)
    (he : h.effect c.toConfig call r = some h') (i : Nat) : h'.logOf i = h.logOf i := by
  cases call with
  | read i fd => exact absurd rfl (hcall i fd)
  | sendConn fd conn =>
      rcases Host.sendMessage_eq he with ⟨-, rfl⟩ | ⟨-, rfl⟩ <;> rfl
  | send fd packet =>
      rcases Host.sendMessage_eq he with ⟨-, rfl⟩ | ⟨-, rfl⟩ <;> rfl
  | openDevice n =>
      simp only [Host.effect] at he
      split at he
      · obtain rfl := Option.some.inj he
        -- the new file has an empty log
        rw [Host.logOf, Host.logOf]
        rcases Nat.lt_trichotomy i h.files.length with hi | rfl | hi
        · rw [List.getElem?_append_left hi]
        · rw [List.getElem?_concat_length, List.getElem?_eq_none (Nat.le_refl _)]
          rfl
        · rw [List.getElem?_eq_none hi.le, List.getElem?_eq_none (by rw [List.length_append]; exact hi)]
      · cases he
  | config | connect _ _ _ =>
      simp only [Host.effect] at he
      split at he
      · obtain rfl := Option.some.inj he
        rfl
      · cases he
  | _ =>
      obtain rfl := Option.some.inj he
      rfl

/-- The socket stays what it is, once it has been made. -/
theorem socket_effect {call : SenderCall} {r : call.Resp} {h' : Host} (hcall : call ≠ .socket)
    (he : h.effect c.toConfig call r = some h') : h'.socket = h.socket := by
  cases call with
  | socket => exact absurd rfl hcall
  | read i fd => rcases Host.effect_read he with ⟨-, rfl⟩ | ⟨e, -, -, rfl⟩ <;> rfl
  | sendConn fd conn =>
      rcases Host.sendMessage_eq he with ⟨-, rfl⟩ | ⟨-, rfl⟩ <;> rfl
  | send fd packet =>
      rcases Host.sendMessage_eq he with ⟨-, rfl⟩ | ⟨-, rfl⟩ <;> rfl
  | openDevice _ | config | connect _ _ _ =>
      simp only [Host.effect] at he
      split at he
      · obtain rfl := Option.some.inj he
        rfl
      · cases he
  | _ =>
      obtain rfl := Option.some.inj he
      rfl

/-- Where nothing has been read nothing is missing. -/
theorem balanced_of_silent (hsound : Sound c h) (hlog : ∀ i, h.logOf i = []) : Balanced h [] := by
  refine ⟨Nat.zero_le 1, fun i => ?_⟩
  rw [List.append_nil, hlog i]
  rcases hsound with hnone | hforwards
  · rw [Host.packets, hnone]
    rfl
  · have hle := hforwards.lags i
    rw [hlog i] at hle
    exact List.prefix_nil.mp hle

theorem setup_ledger (hsent : h.sent = []) (hfiles : h.files = []) :
    wp (ledgerContract c) setup (fun g l => BalancedAt c l g) (h, []) := by
  obtain ⟨k, hk, hwithin⟩ := setup_socket
  have hspec := setup_spec (c := c) hsent hfiles
  have hlog : ∀ i, h.logOf i = [] := fun i => by rw [Host.logOf, hfiles]; rfl
  rw [hk] at hspec ⊢
  refine ⟨balanced_of_silent (c := c) (.inl hsent) hlog, ?_⟩
  intro fd g' hp
  obtain ⟨h', hsocket, rfl⟩ := ledger_post hp
  obtain rfl : { h with socket := fd } = h' := Option.some.inj hsocket
  -- from here on the ledger is that of the host alone
  have hrest := wp_within (hspec.2 fd _ rfl) (hwithin fd)
  refine wp_mono (wp_represent (D := ledgerContract c)
    (R := fun g h => g = (h, []) ∧ h.socket = fd ∧ ∀ i, h.logOf i = []) hrest ⟨rfl, rfl, hlog⟩ ?_ ?_) ?_
  · rintro _ h call ⟨rfl, -, hlog⟩ ⟨hsound, hcall, -⟩
    exact ledgerAt_of_balanced (balanced_of_silent hsound hlog) hcall
  · rintro _ h call r g' ⟨rfl, hfd, hlog⟩ ⟨-, hcall, hmade⟩ hp
    obtain ⟨h', he, rfl⟩ := ledger_quiet hp (by rintro _ _ rfl; exact hcall trivial)
    refine ⟨h', he, rfl, (socket_effect hmade he).trans hfd, fun i => ?_⟩
    rw [logOf_effect (by rintro _ _ rfl; exact hcall trivial) he i, hlog i]
  · rintro _ l ⟨h, ⟨rfl, hfd, hlog⟩, hat, hafter, henv⟩
    cases l with
    | loop env => exact ⟨hat, (henv env rfl).trans hfd.symm, rfl⟩
    | exited => exact balanced_of_silent hat hlog
    | _ => exact hafter.elim

end Sender

/-- **Every block of a sender balances its ledger.** -/
theorem ledger_verified (c : SenderConfig) : Thread.Verified (ledgerContract c) spawnSenderThread (BalancedAt c) := by
  rintro l ⟨h, lost⟩ hl
  cases l with
  | entry =>
      obtain ⟨hsent, hfiles, rfl⟩ := hl
      exact Sender.setup_ledger hsent hfiles
  | loop env =>
      have hw : Whole c env h lost := hl
      refine ⟨hw.balanced, ?_⟩
      intro _ g' hp
      obtain ⟨h', he, rfl⟩ := ledger_quiet hp nofun
      obtain rfl : h = h' := Option.some.inj he
      refine ⟨hw.balanced, ?_⟩
      intro config g' hp
      obtain ⟨h', he, rfl⟩ := ledger_quiet hp nofun
      obtain ⟨rfl, rfl⟩ := Sender.effect_config he
      refine ⟨hw.balanced, ?_⟩
      intro _ g' hp
      obtain ⟨h', he, rfl⟩ := ledger_quiet hp nofun
      obtain rfl := Option.some.inj he
      exact ⟨hw, rfl⟩
  | round env k =>
      obtain ⟨hw, rfl⟩ := hl
      refine wp_seq (Sender.sendInputEvent_ledger hw) ?_
      rintro g r ⟨hb, hr⟩
      exact ⟨hb, fun hconn => hr (of_decide_eq_true hconn)⟩
  | check env connected =>
      obtain ⟨hb, hconn⟩ := hl
      refine ⟨hb, ?_⟩
      intro _ g' hp
      obtain ⟨h', he, rfl⟩ := ledger_quiet hp nofun
      obtain rfl : h = h' := Option.some.inj he
      refine ⟨hb, ?_⟩
      intro sending g' hp
      obtain ⟨h', he, rfl⟩ := ledger_quiet hp nofun
      obtain rfl : h = h' := Option.some.inj he
      refine ⟨hb, ?_⟩
      intro _ g' hp
      obtain ⟨h', he, rfl⟩ := ledger_quiet hp nofun
      obtain rfl : h = h' := Option.some.inj he
      show BalancedAt c (if (connected && sending) = true then .loop env else .leave env) (h, lost)
      split
      · next hgo =>
        rw [Bool.and_eq_true] at hgo
        exact hconn hgo.1
      · exact hb
  | leave env =>
      have hb : Balanced h lost := hl
      refine ⟨hb, ?_⟩
      intro _ g' hp
      obtain ⟨h', he, rfl⟩ := ledger_quiet hp nofun
      obtain rfl : h = h' := Option.some.inj he
      exact hb
  | exited => exact hl

/-! ## In whose hand a packet is -/

/-- The packet that a sender is about to send. -/
def Sender.held (t : Thread senderI SenderLoc) : List InputPacket :=
  match t.rest.next with
  | some (.send _ packet) => [packet]
  | _                     => []

/-- The packet that a listener is about to write. -/
def Listener.held (t : Thread listenerI ListenerLoc) : List InputPacket :=
  match t.rest.next with
  | some (.write devId ie) => [⟨devId, ie⟩]
  | _                      => []

/-- The packets on their way to the daemon. -/
def Peer.inFlight (p : Peer) : List InputPacket := (p.sent.drop p.received).map InputPacket.ofMem

/-- Wherever a sender stands, what it has read is sent, in its hand or lost. -/
theorem Sender.balanced_of_ok {c : SenderConfig} {t : Thread senderI SenderLoc} {h : Host} {lost : List InputPacket}
    (hok : t.Ok (ledgerContract c) (BalancedAt c) (h, lost)) :
    (Sender.held t ++ lost).length ≤ 1 ∧ ∀ i, eventsOf i (h.packets ++ Sender.held t ++ lost) = h.logOf i := by
  have hplain : ∀ {lost : List InputPacket}, Sender.held t = [] → Balanced h lost →
      (Sender.held t ++ lost).length ≤ 1 ∧ ∀ i, eventsOf i (h.packets ++ Sender.held t ++ lost) = h.logOf i := by
    intro lost hnone hb
    rw [hnone, List.nil_append, List.append_nil]
    exact ⟨hb.one, hb.all⟩
  cases hrest : t.rest with
  | ret l =>
      have hnone : Sender.held t = [] := by rw [Sender.held, hrest]; rfl
      have hl : BalancedAt c l (h, lost) := hok.of_ret hrest
      cases l with
      | entry =>
          obtain ⟨hsent, hfiles, rfl⟩ := hl
          refine hplain hnone (Sender.balanced_of_silent (c := c) (.inl hsent) fun i => ?_)
          rw [Host.logOf, show h.files = [] from hfiles]
          rfl
      | loop env => exact hplain hnone hl.balanced
      | round env k => exact hplain hnone hl.1.balanced
      | check env connected => exact hplain hnone hl.1
      | leave env => exact hplain hnone hl
      | exited => exact hplain hnone hl
  | call call k =>
      have hpre : LedgerAt h lost call := (hok.of_call hrest).1
      have hnext : t.rest.next = some call := by rw [hrest]; rfl
      cases call with
      | send fd packet =>
          obtain ⟨-, -, rfl, hall⟩ := hpre
          rw [Sender.held, hnext, List.append_nil, List.append_nil]
          exact ⟨Nat.le_refl 1, hall⟩
      | read i fd => exact hplain (by rw [Sender.held, hnext]) hpre.1
      | _ => exact hplain (by rw [Sender.held, hnext]) hpre

/-- Wherever a listener stands, what it has read is written or in its hand. -/
theorem Listener.held_of_ok {t : Thread listenerI ListenerLoc} {g : List (Sigma listenerI.Resp)}
    (hok : t.Ok (Thread.history Wire.InStep) Wire.DecodingAt g) :
    Wire.decoded (g.flatMap Wire.readOf) = g.flatMap Wire.writeOf ++ Listener.held t := by
  cases hrest : t.rest with
  | ret l =>
      have hl : Wire.DecodingAt l g := hok.of_ret hrest
      have hdec : Wire.Decoding g := by
        cases l with
        | loop packet => exact hl.2
        | exited => exact hl
      rw [Listener.held, hrest, Prog.next, List.append_nil]
      exact hdec.symm
  | call c k =>
      have hpre : Wire.InStep g c := (hok.of_call hrest).1
      rw [Listener.held, hrest, Prog.next]
      cases c with
      | write devId ie => exact hpre.symm
      | _ => exact (List.append_nil _).symm ▸ hpre.symm

/-! ## Whole runs -/

namespace Net

variable {cs : List SenderConfig} {s s' : Net} {e : NetEvent} {tr : List NetEvent}

/-- The packet that the `j`-th peer loses in an event. -/
def lostBy (j : Nat) : NetEvent → List InputPacket
  | .peer i (.did call r) => if i = j then lostIn ⟨call, r⟩ else []
  | _                     => []

/-- The packets that the `j`-th peer has lost. -/
def lost (j : Nat) (tr : List NetEvent) : List InputPacket := tr.flatMap (lostBy j)

theorem lost_snoc (j : Nat) (tr : List NetEvent) (e : NetEvent) : lost j (tr ++ [e]) = lost j tr ++ lostBy j e := by
  rw [lost, List.flatMap_append, List.flatMap_singleton, lost]

/-- Every peer keeps its ledger. -/
def Ledger (tr : List NetEvent) (s : Net) : Prop := ∀ (j : Nat) (p : Peer), s.peers[j]? = some p →
  p.thread.Ok (ledgerContract p.config) (BalancedAt p.config) (p.toHost, lost j tr)

/-- **Step lemma.** -/
theorem ledger_step (hinv : Ledger tr s) (h : Step s e s') : Ledger (tr ++ [e]) s' := by
  intro j p' hp'
  rw [lost_snoc]
  cases e with
  | daemon e =>
      obtain ⟨p, hp, hhost, hconfig, hthread⟩ := deliver_sender (step_daemon h).2 hp'
      rw [hhost, hconfig, hthread, show lostBy j (.daemon e) = [] from rfl, List.append_nil]
      exact hinv j p hp
  | peer i a =>
      obtain ⟨p, t, host, hp, hf, hact, rfl⟩ := step_peer h
      rcases getElem?_set_cases hp' with ⟨rfl, rfl⟩ | ⟨hne, hq⟩
      · have hok := hinv j p hp
        cases a with
        | jump l =>
            obtain rfl : p.toHost = host := Option.some.inj hact
            rw [show lostBy j (.peer j (.jump l)) = [] from rfl, List.append_nil]
            exact hok.jump (ledger_verified p.config) hf
        | did call r =>
            rw [show lostBy j (.peer j (.did call r)) = lostIn ⟨call, r⟩ from if_pos rfl]
            exact hok.did hf ⟨hact, rfl⟩
      · have hnone : lostBy j (.peer i a) = [] := by
          cases a with
          | jump l => rfl
          | did call r => exact if_neg (Ne.symm hne)
        rw [hnone, List.append_nil]
        exact hinv j p' hq

/-- **Run lemma.** -/
theorem ledger_run {cfg : Config} {conn args : Bytes} (h : Run Step (Net.init cfg conn args cs) tr s) : Ledger tr s := by
  refine h.history (fun j p hp => ?_) fun _ _ _ _ => ledger_step
  obtain ⟨c, -, rfl⟩ := List.mem_map.mp (List.mem_of_getElem? hp)
  exact Thread.ok_start (ledger_verified c) ⟨rfl, rfl, rfl⟩

/-- The packets sent are those received and those on their way. -/
theorem packets_split {p : Peer} (hpos : 0 < p.received) (hbound : p.received ≤ p.sent.length) :
    p.packets = p.receivedPackets ++ p.inFlight := by
  have hone : 1 ≤ (p.sent.take p.received).length := by rw [List.length_take]; omega
  calc p.packets = ((p.sent.take p.received ++ p.sent.drop p.received).drop 1).map InputPacket.ofMem := by
        rw [List.take_append_drop]; rfl
    _ = p.receivedPackets ++ p.inFlight := by
        rw [List.drop_append_of_le_length hone, List.map_append]; rfl

/-- What was read from the `i`-th file of a peer is what was written to the `i`-th device of its listener, and what lies
    between the two. -/
theorem served_log {m j i : Nat} {d : ListenerThread} {p : Peer} {g : List (Sigma listenerI.Resp)} (hinv : Inv cs s)
    (hledger : Ledger tr s) (hs : Served s m d j p g) (hi : i < p.config.count) :
    ∃ (device : VirtualDevice) (u : UInputDev) (f : DeviceFile), d.args.devices[i]? = some device ∧
      s.daemon.uinput[device.devfd.toNat]? = some u ∧ p.files[i]? = some f ∧
      f.log = u.log ++ eventsOf i (Listener.held d.thread ++ p.inFlight ++ Sender.held p.thread ++ lost j tr) := by
  have hpi := hinv.peers p (List.mem_of_getElem? hs.peer)
  obtain ⟨u, hu, -, -, hlog⟩ := hs.devices i hi
  have hforwards := hs.forwards hpi
  have hfile : i < p.files.length := by rw [hforwards.files_length]; exact hi
  refine ⟨_, u, p.files[i], hs.device hi, hu, List.getElem?_eq_getElem hfile, ?_⟩
  -- read, sent, received, written: each is the next and what lies between the two
  calc (p.files[i]).log = p.logOf i := by rw [Host.logOf, List.getElem?_eq_getElem hfile]; rfl
    _ = eventsOf i (p.packets ++ Sender.held p.thread ++ lost j tr) :=
        ((Sender.balanced_of_ok (hledger j p hs.peer)).2 i).symm
    _ = eventsOf i (Wire.decoded (g.flatMap Wire.readOf) ++ p.inFlight ++ Sender.held p.thread ++ lost j tr) := by
        rw [packets_split hs.greeted hpi.bound, hs.heard]
    _ = eventsOf i (g.flatMap Wire.writeOf ++
          (Listener.held d.thread ++ p.inFlight ++ Sender.held p.thread ++ lost j tr)) := by
        rw [Listener.held_of_ok hs.ok]
        simp only [List.append_assoc]
    _ = u.log ++ eventsOf i (Listener.held d.thread ++ p.inFlight ++ Sender.held p.thread ++ lost j tr) := by
        rw [eventsOf_append, ← hlog]

/-- An event is forwarded as in `eventEvents`; in the next round the `send` fails. -/
def lossEvents : List NetEvent :=
  helloEvents ++ welcomeEvents ++ eventEvents ++
  [.peer 0 (.jump (.check ⟨3, [0]⟩ true)), peerCall .lock (), peerCall .sending true, peerCall .unlock (),
    .peer 0 (.jump (.loop ⟨3, [0]⟩)), peerCall .lock (), peerCall .config oneDevice.toConfig, peerCall .unlock (),
    .peer 0 (.jump (.round ⟨3, [0]⟩ 1)), peerCall (.poll [0]) ⟨1, [true]⟩,
    peerCall (.read 0 0) (.data oneEvent.bytes oneEvent.size.le), peerCall (.send 3 onePacket) (-1 : Int)]

theorem lost_lossEvents : lost 0 lossEvents = [onePacket] := by decide +kernel

/-- Nothing is in anybody's hand then, nor on its way. -/
theorem loss_run : ∃ (s : Net) (d : ListenerThread),
    Run Step (Net.init Daemon.emptyConfig [] [] [oneDevice]) lossEvents s ∧
    d ∈ s.daemon.listeners ∧ Listener.held d.thread = [] ∧
    ∀ (j : Nat) (p : Peer), s.peers[j]? = some p →
      j = 0 ∧ p.config.count = 1 ∧ p.inFlight = [] ∧ Sender.held p.thread = [] := by
  have hexec : (execs exec (Net.init Daemon.emptyConfig [] [] [oneDevice]) lossEvents).map
      (fun s => (s.daemon.listeners.map fun d => Listener.held d.thread,
        s.peers.map fun p => (p.config.count, p.inFlight, Sender.held p.thread))) = some ([[]], [(1, [], [])]) := by
    decide +kernel
  obtain ⟨s, hrun, hfin⟩ := Run.exists_of_execs hexec
  obtain ⟨hlisteners, hpeers⟩ := Prod.mk.inj hfin
  obtain ⟨d, hd, hheld⟩ := List.mem_map.mp (hlisteners ▸ List.mem_singleton_self _ :
    ([] : List InputPacket) ∈ s.daemon.listeners.map fun d => Listener.held d.thread)
  refine ⟨s, d, hrun, hd, hheld, fun j p hp => ?_⟩
  have hmem := List.mem_map_of_mem (f := fun p : Peer => (p.config.count, p.inFlight, Sender.held p.thread))
    (List.mem_of_getElem? hp)
  rw [hpeers, List.mem_singleton, Prod.mk.injEq, Prod.mk.injEq] at hmem
  have hlen := congrArg List.length hpeers
  rw [List.length_map, List.length_singleton] at hlen
  have hlt := (List.getElem?_eq_some_iff.mp hp).1
  exact ⟨by omega, hmem⟩

end Net

end IOSwitch
