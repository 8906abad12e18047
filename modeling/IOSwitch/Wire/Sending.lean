import IOSwitch.Wire.Handshake

/-!
# `Wire.Sending` — a sender and what it has read and sent

The host of a sender thread: the device files it has opened, each with the events read from it, and the
messages it has put on its connection. The platform is taken to be kind: `connect` and `open` succeed, a `read`
gives a whole event or fails, a `send` takes a whole message or fails.

`sending_verified` says what the code keeps true there. After the `NewConnection` come packets whose index
names a device, and the events sent for a device are, in order, those read from it, up to one that was read and
could not be sent.
-/

namespace IOSwitch

open Lib

/-! ## The host -/

/-- A device file that was opened, and the events read from it. -/
structure DeviceFile where
  name : Bytes
  log  : List InputEvent
  deriving DecidableEq

/-- What the calls of a sender thread act on. -/
structure Host where
  socket    : Int
  connected : Bool
  files     : List DeviceFile
  sent      : List Bytes

namespace Host

/-- Before the sender runs. -/
def init : Host := ⟨-1, false, [], []⟩

/-- An event has been read from the `i`-th file. -/
def readFrom (h : Host) (i : Nat) (e : InputEvent) : Host :=
  { h with files := h.files.modify i fun f => { f with log := f.log ++ [e] } }

/-- A message has been sent. -/
def push (h : Host) (m : Bytes) : Host := { h with sent := h.sent ++ [m] }

/-- `send` of the message `m`: all of it or nothing, and only on the connection the host has made. -/
def sendMessage (h : Host) (fd : Int) (m : Bytes) (ret : Int) : Option Host :=
  if ret < 0 then some h
  else if fd = h.socket ∧ ret = m.length then some (h.push m)
  else none

/-- The effect of a sender's call, where `c` is the config it was given. -/
def effect (c : Config) (h : Host) : (call : SenderCall) → call.Resp → Option Host
  | .config, r          => if r = c then some h else none
  | .socket, fd         => some { h with socket := fd }
  | .connect fd _ _, r  => if 0 ≤ r ∧ fd = h.socket then some { h with connected := true } else none
  -- a descriptor stands for its file: the next one is new
  | .openDevice n, fd   => if fd = h.files.length then some { h with files := h.files ++ [⟨n, []⟩] } else none
  | .sendConn fd conn, r => h.sendMessage fd conn.encode r
  | .send fd packet, r  => h.sendMessage fd packet.encode r
  | .read _ fd, r       => match r with
    | .error    => some h
    | .data d _ => if hd : d.length = 24 ∧ 0 ≤ fd then some (h.readFrom fd.toNat ⟨d, hd.1⟩) else none
  | _, _                => some h

/-- The packets among the messages: all but the first one. -/
def packets (h : Host) : List InputPacket := (h.sent.drop 1).map InputPacket.ofMem

/-- The events read from the `i`-th file. -/
def logOf (h : Host) (i : Nat) : List InputEvent := ((h.files[i]?).map (·.log)).getD []

@[simp] theorem packets_readFrom (h : Host) (i : Nat) (e : InputEvent) : (h.readFrom i e).packets = h.packets := rfl

@[simp] theorem logOf_push (h : Host) (m : Bytes) (i : Nat) : (h.push m).logOf i = h.logOf i := rfl

theorem names_readFrom (h : Host) (i : Nat) (e : InputEvent) :
    (h.readFrom i e).files.map (·.name) = h.files.map (·.name) := by
  apply List.ext_getElem?
  intro j
  rw [readFrom, List.getElem?_map, List.getElem?_map, List.getElem?_modify]
  cases h.files[j]? with
  | none => rfl
  | some f => by_cases hj : i = j <;> simp [hj]

theorem logOf_readFrom (h : Host) {i : Nat} (e : InputEvent) (j : Nat) (hi : i < h.files.length) :
    (h.readFrom i e).logOf j = if j = i then h.logOf j ++ [e] else h.logOf j := by
  rw [logOf, readFrom, List.getElem?_modify, logOf]
  by_cases hj : i = j
  · subst hj
    simp [List.getElem?_eq_getElem hi]
  · have hj' : ¬ j = i := fun h => hj h.symm
    simp [hj, hj']

/-- A packet sent behind the first message. -/
theorem packets_push {h : Host} (hne : h.sent ≠ []) (p : InputPacket) :
    (h.push p.encode).packets = h.packets ++ [p] := by
  cases hs : h.sent with
  | nil => exact absurd hs hne
  | cons m ms => simp [packets, push, hs]

end Host

/-- The events of the `i`-th device, in the order of their packets. -/
def eventsOf (i : Nat) (ps : List InputPacket) : List InputEvent :=
  (ps.filter fun p => p.devId.toNat = i).map (·.ie)

theorem eventsOf_append (i : Nat) (ps qs : List InputPacket) :
    eventsOf i (ps ++ qs) = eventsOf i ps ++ eventsOf i qs := by
  simp [eventsOf]

theorem eventsOf_single (i : Nat) (p : InputPacket) :
    eventsOf i [p] = if p.devId.toNat = i then [p.ie] else [] := by
  by_cases h : p.devId.toNat = i <;> simp [eventsOf, h]

/-- Fewer packets, fewer events of each device. -/
theorem eventsOf_prefix (i : Nat) {ps qs : List InputPacket} (h : ps <+: qs) : eventsOf i ps <+: eventsOf i qs := by
  obtain ⟨rest, rfl⟩ := h
  rw [eventsOf_append]
  exact List.prefix_append _ _

/-! ## What a sender keeps true -/

variable {c : SenderConfig}

/-- The connection has been opened with `hello`; the packets that followed name devices of the config; for each
    device its events were sent in the order they were read. -/
structure Forwards (c : SenderConfig) (h : Host) : Prop where
  framed  : h.sent = c.hello :: h.packets.map InputPacket.encode
  indexed : ∀ p ∈ h.packets, p.devId.toNat < c.count
  names   : h.files.map (·.name) = (List.range c.count).map c.name
  lags    : ∀ i, eventsOf i h.packets <+: h.logOf i

/-- At every moment: nothing has been sent, or the host is forwarding. -/
def Sound (c : SenderConfig) (h : Host) : Prop := h.sent = [] ∨ Forwards c h

/-- Between rounds every event read has been sent, and the descriptors are those of the files. -/
structure Synced (c : SenderConfig) (env : SenderEnv) (h : Host) : Prop extends Forwards c h where
  all : ∀ i, eventsOf i h.packets = h.logOf i
  fds : env.deviceFds = (List.range c.count).map Int.ofNat

/-- The calls of a sender with config `c`, made on a host in order. -/
def hostContract (c : SenderConfig) : Contract senderI Host where
  pre h _        := Sound c h
  post h call r h' := h.effect c.toConfig call r = some h'

/-- The invariants of the labels. -/
def SendingAt (c : SenderConfig) : SenderLoc → Host → Prop
  | .entry, h               => h.sent = [] ∧ h.files = []
  | .loop env, h            => Synced c env h
  | .round env k, h         => Synced c env h ∧ k = c.count
  | .check env connected, h => Forwards c h ∧ (connected = true → Synced c env h)
  | .leave _, h | .exited, h => Sound c h

namespace Forwards

variable {h : Host}

theorem sent_ne_nil (hf : Forwards c h) : h.sent ≠ [] := by
  rw [hf.framed]
  exact List.cons_ne_nil _ _

theorem files_length (hf : Forwards c h) : h.files.length = c.count := by
  have hlen := congrArg List.length hf.names
  rwa [List.length_map, List.length_map, List.length_range] at hlen

/-- An event is read. -/
theorem readFrom (hf : Forwards c h) {i : Nat} (hi : i < c.count) (e : InputEvent) :
    Forwards c (h.readFrom i e) where
  framed := hf.framed
  indexed := hf.indexed
  names := (h.names_readFrom i e).trans hf.names
  lags j := by
    rw [h.logOf_readFrom e j (by rw [hf.files_length]; exact hi), Host.packets_readFrom]
    split
    · exact (hf.lags j).trans (List.prefix_append _ _)
    · exact hf.lags j

end Forwards

/-- The `i`-th descriptor is that of the `i`-th file. -/
theorem Synced.deviceFd {env : SenderEnv} {h : Host} (hs : Synced c env h) {i : Nat} (hi : i < c.count) :
    env.deviceFds.getD i (-1) = i := by
  rw [hs.fds, List.getD_eq_getElem?_getD, List.getElem?_map, List.getElem?_range hi]
  rfl

/-- The event of the packet to be sent is the one just read. -/
theorem Synced.readFrom_send {env : SenderEnv} {h : Host} (hs : Synced c env h) {i : Nat} (hi : i < c.count)
    (e : InputEvent) : Synced c env ((h.readFrom i e).push (InputPacket.encode ⟨BitVec.ofNat 32 i, e⟩)) := by
  have hne : (h.readFrom i e).sent ≠ [] := hs.sent_ne_nil
  have hid : (BitVec.ofNat 32 i).toNat = i := by
    have hfew : c.count ≤ 8 := c.few
    rw [BitVec.toNat_ofNat]
    omega
  have hall : ∀ j, eventsOf j (h.packets ++ [⟨BitVec.ofNat 32 i, e⟩]) = (h.readFrom i e).logOf j := by
    intro j
    rw [h.logOf_readFrom e j (by rw [hs.files_length]; exact hi), eventsOf_append, hs.all j, eventsOf_single, hid]
    by_cases hj : i = j
    · rw [if_pos hj, if_pos hj.symm]
    · rw [if_neg hj, if_neg fun h => hj h.symm, List.append_nil]
  constructor
  · constructor
    · rw [Host.packets_push hne, Host.packets_readFrom, List.map_append, List.map_singleton, ← List.cons_append,
        ← hs.framed]
      rfl
    · rw [Host.packets_push hne, Host.packets_readFrom]
      intro p hp
      rcases List.mem_append.mp hp with hp | hp
      · exact hs.indexed p hp
      · rw [List.mem_singleton.mp hp, hid]
        exact hi
    · exact (h.names_readFrom i e).trans hs.names
    · intro j
      rw [Host.packets_push hne, Host.packets_readFrom, Host.logOf_push, hall j]
  · intro j
    rw [Host.packets_push hne, Host.packets_readFrom, Host.logOf_push, hall j]
  · exact hs.fds

/-! ## The blocks of the sender -/

/-- A send that does not fail has pushed its message. -/
theorem Host.sendMessage_eq {h h' : Host} {fd ret : Int} {m : Bytes} (hs : h.sendMessage fd m ret = some h') :
    (ret < 0 ∧ h' = h) ∨ (0 ≤ ret ∧ h' = h.push m) := by
  unfold Host.sendMessage at hs
  split at hs
  · exact .inl ⟨‹_›, (Option.some.inj hs).symm⟩
  · split at hs
    · exact .inr ⟨by omega, (Option.some.inj hs).symm⟩
    · cases hs

/-- A read that does not fail has taken a whole event from the file of the descriptor. -/
theorem Host.effect_read {c : Config} {h h' : Host} {i : Nat} {fd : Int} {r : ReadResult 24}
    (hr : h.effect c (.read i fd) r = some h') :
    (r.ret < 0 ∧ h' = h) ∨ ∃ e : InputEvent, r.bytes = e.bytes ∧ 0 ≤ r.ret ∧ h' = h.readFrom fd.toNat e := by
  cases r with
  | error => exact .inl ⟨by decide, (Option.some.inj hr).symm⟩
  | data d hd =>
      simp only [Host.effect] at hr
      split at hr
      · next hlen => exact .inr ⟨⟨d, hlen.1⟩, rfl, Int.natCast_nonneg _, (Option.some.inj hr).symm⟩
      · cases hr

namespace Sender

variable {h : Host}

/-- **The loop of `send_input_event`.** From the `i`-th device on; a failure leaves the host forwarding. -/
theorem forwardReady_spec {env : SenderEnv} (revents : List Bool) (dest : Int) (n i : Nat) (packet : InputPacket)
    (hn : i + n = c.count) (hs : Synced c env h) :
    wp (hostContract c) (forwardReady env.deviceFds revents dest n i packet)
      (fun h' r => Forwards c h' ∧ (0 ≤ r → Synced c env h')) h := by
  induction n generalizing i packet h with
  | zero => exact ⟨hs.toForwards, fun _ => hs⟩
  | succ n ih =>
      have hi : i < c.count := by omega
      show wp _ (if revents.getD i false then _ else _) _ _
      split
      · -- the device is ready
        have hfd : env.deviceFds.getD i (-1) = i := by
          rw [hs.fds, List.getD_eq_getElem?_getD, List.getElem?_map, List.getElem?_range hi]
          rfl
        refine ⟨.inr hs.toForwards, ?_⟩
        intro r h' hread
        rw [hfd] at hread
        show wp _ (if r.ret < 0 then _ else _) _ _
        rcases Host.effect_read hread with ⟨hneg, rfl⟩ | ⟨e, hbytes, hpos, rfl⟩
        · rw [if_pos hneg]
          exact ⟨hs.toForwards, fun hneg => absurd hneg (by decide)⟩
        · rw [if_neg (by omega), hbytes, InputEvent.fill_bytes]
          have hread := hs.toForwards.readFrom hi e
          refine ⟨.inr hread, ?_⟩
          intro sent h'' hsend
          show wp _ (if sent ≤ 0 then _ else _) _ _
          rcases Host.sendMessage_eq hsend with ⟨hneg, rfl⟩ | ⟨hpos, rfl⟩
          · rw [if_pos (Int.le_of_lt hneg)]
            exact ⟨hread, fun hneg => absurd hneg (by decide)⟩
          · have hsync := hs.readFrom_send hi e
            split
            · -- a `send` that answers 0 ends the round like a failing one
              exact ⟨hsync.toForwards, fun _ => hsync⟩
            · exact ih (i + 1) _ (by omega) hsync
      · exact ih (i + 1) packet (by omega) hs

/-- **`send_input_event`**: one round over all devices. -/
theorem sendInputEvent_spec {env : SenderEnv} (dest : Int) (hs : Synced c env h) :
    wp (hostContract c) (sendInputEvent c.count env.deviceFds dest)
      (fun h' r => Forwards c h' ∧ (0 ≤ r → Synced c env h')) h := by
  refine ⟨.inr hs.toForwards, ?_⟩
  intro p h' hp
  obtain rfl : h = h' := Option.some.inj hp
  show wp _ (if p.ret < 0 then _ else _) _ _
  split
  · exact ⟨hs.toForwards, fun hneg => absurd hneg (by decide)⟩
  · exact forwardReady_spec p.revents dest c.count 0 .zero (Nat.zero_add _) hs

/-- The files of the first `n` devices, freshly opened. -/
def freshFiles (c : SenderConfig) (n : Nat) : List DeviceFile := (List.range n).map fun i => ⟨c.name i, []⟩

/-- **The loop that opens the devices**: file and descriptor of every device stand at its index. -/
theorem openDevices_spec (n i : Nat) (hsent : h.sent = []) (hfiles : h.files = freshFiles c i) :
    wp (hostContract c) (openDevices c.toConfig n i (c.conn i) ((List.range i).map Int.ofNat))
      (fun h' opened => h'.sent = [] ∧ ∀ conn fds, opened = some (conn, fds) →
        conn = c.conn (i + n) ∧ fds = (List.range (i + n)).map Int.ofNat ∧ h'.files = freshFiles c (i + n)) h := by
  induction n generalizing i h with
  | zero => exact ⟨hsent, by rintro _ _ ⟨⟩; exact ⟨rfl, rfl, hfiles⟩⟩
  | succ n ih =>
      refine ⟨.inl hsent, ?_⟩
      intro fd h' hopen
      show wp _ (if fd < 0 then _ else _) _ _
      simp only [hostContract, Host.effect] at hopen
      split at hopen
      · next hfd =>
        obtain rfl := Option.some.inj hopen
        have hlen : h.files.length = i := by rw [hfiles, freshFiles, List.length_map, List.length_range]
        rw [hlen] at hfd
        rw [hfd, if_neg (Int.not_lt.mpr (Int.natCast_nonneg i))]
        have hfds : (List.range i).map Int.ofNat ++ [(i : Int)] = (List.range (i + 1)).map Int.ofNat := by
          rw [List.range_succ, List.map_append]
          rfl
        have hnext : h.files ++ [⟨c.name i, []⟩] = freshFiles c (i + 1) := by
          rw [hfiles, freshFiles, freshFiles, List.range_succ, List.map_append]
          rfl
        rw [hfds]
        have hrest := ih (h := { h with files := h.files ++ [⟨c.name i, []⟩] }) (i + 1) hsent hnext
        rwa [show i + 1 + n = i + (n + 1) by omega] at hrest
      · cases hopen

theorem connectToServer_spec (fd : Int) (ip : Bytes) (port : UInt16) (hsent : h.sent = []) (hfiles : h.files = []) :
    wp (hostContract c) (connectToServer fd ip port) (fun h' _ => h'.sent = [] ∧ h'.files = []) h := by
  refine ⟨.inl hsent, ?_⟩
  intro r h' hp
  obtain rfl : h = h' := Option.some.inj hp
  show wp _ (if r ≤ 0 then _ else _) _ _
  split
  · exact ⟨hsent, hfiles⟩
  refine ⟨.inl hsent, ?_⟩
  intro r h' hconn
  simp only [hostContract, Host.effect] at hconn
  split at hconn
  · obtain rfl := Option.some.inj hconn
    show wp _ (if r < 0 then _ else _) _ _
    split <;> exact ⟨hsent, hfiles⟩
  · cases hconn

/-- A read of the config answers the sender's own. -/
theorem effect_config {r : Config} {h' : Host} (hr : (hostContract c).post h .config r h') :
    r = c.toConfig ∧ h' = h := by
  simp only [hostContract, Host.effect] at hr
  split at hr
  · exact ⟨‹_›, (Option.some.inj hr).symm⟩
  · cases hr

/-- Before its first message a sender is sound. -/
theorem synced_hello {env : SenderEnv} (hsent : h.sent = []) (hfiles : h.files = freshFiles c c.count)
    (hfds : env.deviceFds = (List.range c.count).map Int.ofNat) : Synced c env (h.push c.hello) := by
  have hsent' : (h.push c.hello).sent = [c.hello] := by rw [Host.push, hsent]; rfl
  have hpackets : (h.push c.hello).packets = [] := by rw [Host.packets, hsent']; rfl
  have hlog : ∀ i, (h.push c.hello).logOf i = [] := by
    intro i
    rw [Host.logOf_push, Host.logOf, hfiles, freshFiles, List.getElem?_map]
    cases (List.range c.count)[i]? <;> rfl
  have hall : ∀ i, eventsOf i (h.push c.hello).packets = (h.push c.hello).logOf i := by
    intro i
    rw [hpackets, hlog i]
    rfl
  refine ⟨⟨?_, ?_, ?_, ?_⟩, hall, hfds⟩
  · rw [hsent', hpackets]
    rfl
  · rw [hpackets]
    exact fun p hp => absurd hp List.not_mem_nil
  · show h.files.map (·.name) = _
    rw [hfiles, freshFiles, List.map_map]
    rfl
  · exact fun i => (hall i).symm ▸ List.prefix_refl _

/-- **The part of `spawn_sender_thread` before its loop.** -/
theorem setup_spec (hsent : h.sent = []) (hfiles : h.files = []) :
    wp (hostContract c) setup (fun h' l => SendingAt c l h') h := by
  refine ⟨.inl hsent, ?_⟩
  intro fd h' hp
  obtain rfl : { h with socket := fd } = h' := Option.some.inj hp
  show wp _ (if fd < 0 then _ else _) _ _
  split
  · exact .inl hsent
  refine ⟨.inl hsent, ?_⟩
  intro _ h' hp
  obtain rfl := Option.some.inj hp
  refine ⟨.inl hsent, ?_⟩
  intro config h' hp
  obtain ⟨rfl, rfl⟩ := effect_config hp
  show wp _ (connectToServer _ _ _ >>= _) _ _
  refine wp_seq (connectToServer_spec _ _ _ hsent hfiles) ?_
  clear hp hsent hfiles
  rintro h r ⟨hsent, hfiles⟩
  show wp _ (if r < 0 then _ else _) _ _
  split
  · refine ⟨.inl hsent, ?_⟩
    intro _ h' hp
    obtain rfl := Option.some.inj hp
    exact .inl hsent
  refine ⟨.inl hsent, ?_⟩
  intro _ h' hp
  obtain rfl := Option.some.inj hp
  refine ⟨.inl hsent, ?_⟩
  intro config h' hp
  obtain ⟨rfl, rfl⟩ := effect_config hp
  refine ⟨.inl hsent, ?_⟩
  intro _ h' hp
  obtain rfl := Option.some.inj hp
  refine ⟨.inl hsent, ?_⟩
  intro config h' hp
  obtain ⟨rfl, rfl⟩ := effect_config hp
  show wp _ (openDevices c.toConfig c.count 0 (c.conn 0) ((List.range 0).map Int.ofNat) >>= _) _ _
  -- `conn` is filled while the devices are opened
  refine wp_seq (openDevices_spec c.count 0 hsent hfiles) ?_
  clear hp hsent hfiles
  rintro h opened ⟨hsent, hopened⟩
  cases opened with
  | none =>
      refine ⟨.inl hsent, ?_⟩
      intro _ h' hp
      obtain rfl := Option.some.inj hp
      exact .inl hsent
  | some connFds =>
      obtain ⟨conn, fds⟩ := connFds
      obtain ⟨rfl, rfl, hfiles⟩ := hopened conn fds rfl
      rw [Nat.zero_add] at hfiles ⊢
      refine ⟨.inl hsent, ?_⟩
      intro _ h' hp
      obtain rfl := Option.some.inj hp
      refine ⟨.inl hsent, ?_⟩
      intro sent h' hsend
      show wp _ (if sent < 0 then _ else _) _ _
      rcases Host.sendMessage_eq hsend with ⟨hneg, rfl⟩ | ⟨hpos, rfl⟩
      · rw [if_pos hneg]
        exact .inl hsent
      · rw [if_neg (Int.not_lt.mpr hpos)]
        -- the `hello` is the first message, and no event has been read yet
        have hsync : Synced c ⟨fd, (List.range c.count).map Int.ofNat⟩ (h.push c.hello) :=
          synced_hello hsent hfiles rfl
        refine ⟨.inr hsync.toForwards, ?_⟩
        intro _ h' hp
        obtain rfl := Option.some.inj hp
        exact hsync

end Sender

/-- **Every block of a sender keeps its invariants.** -/
theorem sending_verified (c : SenderConfig) :
    Thread.Verified (hostContract c) spawnSenderThread (SendingAt c) := by
  intro l h hl
  cases l with
  | entry => exact Sender.setup_spec hl.1 hl.2
  | loop env =>
      have hsound : Sound c h := .inr hl.toForwards
      refine ⟨hsound, ?_⟩
      intro _ h' hp
      obtain rfl : h = h' := Option.some.inj hp
      refine ⟨hsound, ?_⟩
      intro config h' hp
      obtain ⟨rfl, rfl⟩ := Sender.effect_config hp
      refine ⟨hsound, ?_⟩
      intro _ h' hp
      obtain rfl := Option.some.inj hp
      exact ⟨hl, rfl⟩
  | round env k =>
      obtain ⟨hsync, rfl⟩ := hl
      -- only a round that failed may leave an event unsent
      refine wp_seq (Sender.sendInputEvent_spec env.fd hsync) ?_
      rintro h' r ⟨hforwards, hr⟩
      exact ⟨hforwards, fun hconn => hr (of_decide_eq_true hconn)⟩
  | check env connected =>
      obtain ⟨hforwards, hconn⟩ := hl
      refine ⟨.inr hforwards, ?_⟩
      intro _ h' hp
      obtain rfl : h = h' := Option.some.inj hp
      refine ⟨.inr hforwards, ?_⟩
      intro sending h' hp
      obtain rfl : h = h' := Option.some.inj hp
      refine ⟨.inr hforwards, ?_⟩
      intro _ h' hp
      obtain rfl : h = h' := Option.some.inj hp
      show SendingAt c (if (connected && sending) = true then .loop env else .leave env) h
      split
      · next hgo =>
        rw [Bool.and_eq_true] at hgo
        exact hconn hgo.1
      · exact .inr hforwards
  | leave env =>
      refine ⟨hl, ?_⟩
      intro _ h' hp
      obtain rfl : h = h' := Option.some.inj hp
      exact hl
  | exited => exact hl

/-- A sender in order is sound, wherever it stands. -/
theorem sound_of_ok {t : Thread senderI SenderLoc} {h : Host} (hok : t.Ok (hostContract c) (SendingAt c) h) :
    Sound c h := by
  cases hrest : t.rest with
  | ret l =>
      have hl : SendingAt c l h := hok.of_ret hrest
      cases l with
      | entry => exact .inl hl.1
      | loop env => exact .inr hl.toForwards
      | round env k => exact .inr hl.1.toForwards
      | check env connected => exact .inr hl.1
      | leave env => exact hl
      | exited => exact hl
  | call call k => exact (hok.of_call hrest).1

end IOSwitch
