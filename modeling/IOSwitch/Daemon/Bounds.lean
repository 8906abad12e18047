import IOSwitch.Daemon.Script

/-!
# `Daemon.Bounds` — what the peers' values index

Three messages bring values that the daemon indexes with: the type of a command selects an entry of
`server->commands`, the number of devices of an input stream bounds a loop over two arrays of `maxDevices`, and
the device of a packet selects an element of `devices`. None of them is checked. Complete messages therefore
keep the daemon inside its tables as long as they fit them (`tables_ok`), and one that does not takes it out
(`tables_overrun`).

## Contents
- `MsgView`, `msgView` — the message the accept loop works on, read off the trace.
- `boundsContract`, `bounds_block` — the main thread and its tables.
- `packetContract`, `packet_verified` — a listener and its devices.
- `TablesOk`, `tables_ok`, `tables_overrun`.
-/

namespace IOSwitch

open Lib Server

/-! ## The message at hand -/

/-- `conn.device_names[i]` holds a NUL within its 64 bytes. -/
def Terminated (m : Bytes) (i : Nat) : Prop := 0 ∈ (NewConnection.deviceNameAt m i).take 64

instance (m : Bytes) (i : Nat) : Decidable (Terminated m i) :=
  inferInstanceAs (Decidable (0 ∈ (NewConnection.deviceNameAt m i).take 64))

/-- The devices announced by the message `m` fit the arrays they are copied to. -/
def FitsTables (m : Bytes) : Prop :=
  (NewConnection.numDevicesAt m).toInt ≤ maxDevices ∧
    ∀ i < (NewConnection.numDevicesAt m).toInt.toNat, Terminated m i

instance (m : Bytes) : Decidable (FitsTables m) :=
  inferInstanceAs (Decidable (_ ∧ ∀ i < (NewConnection.numDevicesAt m).toInt.toNat, Terminated m i))

/-- `COMMANDS_LEN`. -/
def commandsLen : Nat := 7

/-- The index into `server->commands` that the command message `m` holds. -/
def commandIndex (m : Bytes) : Nat := ofLe (m.take 4)

/-- A code below `COMMANDS_LEN` has a handler. -/
theorem has_handler {m : Bytes} (h : commandIndex m < commandsLen) (code : Nat) :
    (CommandArgs.ofMem m).type ≠ .other code := by
  show CommandType.ofCode (commandIndex m) ≠ _
  revert h
  generalize commandIndex m = n
  intro h
  have hn : n = 0 ∨ n = 1 ∨ n = 2 ∨ n = 3 ∨ n = 4 ∨ n = 5 ∨ n = 6 := by
    unfold commandsLen at h
    omega
  rcases hn with rfl | rfl | rfl | rfl | rfl | rfl | rfl <;> simp [CommandType.ofCode]

theorem commandIndex_overlay {args m : Bytes} (h : m.length = CommandArgs.size) :
    commandIndex (overlay args m) = commandIndex m := by
  unfold commandIndex overlay
  rw [List.take_append_of_le_length (by rw [h]; decide)]

/-- The first message of the connection being served, how many devices were opened for it and how many
    connections are counted; `rejected` until the main thread leaves the block that found it of no known type. -/
structure MsgView where
  msg      : Bytes
  opened   : Nat
  count    : Nat
  rejected : Bool

/-- The message names neither an input stream nor a command. -/
def ofNoKind (m : Bytes) : Bool := NewConnection.typeAt m ≠ .inputStream ∧ NewConnection.typeAt m ≠ .command

namespace MsgView

/-- The view after a call of the main thread. -/
def did (g : MsgView) : (c : ServerCall) → c.Resp → MsgView
  | .recvConn _, r  => { g with msg := r.bytes, opened := 0, rejected := decide (0 ≤ r.ret) && ofNoKind r.bytes }
  | .openUinput, _  => { g with opened := g.opened + 1 }
  | .incrNumConns, _ => { g with count := g.count + 1 }
  | _, _            => g

/-- The view after an event. -/
def after (g : MsgView) : Event → MsgView
  | .main (.did c r) => g.did c r
  | .main (.jump _)  => { g with rejected := false }
  | _                => g

end MsgView

/-- The view after the events `tr`. -/
def msgView (tr : List Event) : MsgView := tr.foldl MsgView.after ⟨[], 0, 0, false⟩

theorem msgView_snoc (tr : List Event) (e : Event) : msgView (tr ++ [e]) = (msgView tr).after e := by
  unfold msgView
  rw [List.foldl_append]
  rfl

/-! ## The discipline of the main thread -/

/-- The message fits the tables if it asks for devices and is not turned away. -/
def Announces (count : Nat) (m : Bytes) : Prop :=
  NewConnection.typeAt m = .inputStream → count < maxConnections → FitsTables m

/-- A device is opened only for an announced name that ends, and only as many as the arrays hold; the table of
    commands is not left; and a message of no known kind is answered by no call. -/
def boundsContract : Contract serverI MsgView where
  pre g c := g.rejected = false ∧ match c with
    | .openUinput => g.opened < maxDevices ∧ Terminated g.msg g.opened
    | .wild       => False
    | _           => True
  post g c r g' := g' = g.did c r ∧ match c, r with
    | .recvConn _, r => 0 ≤ r.ret → r.bytes.length = NewConnection.size ∧ Announces g.count r.bytes
    | .recvArgs _, r => 0 ≤ r.ret → r.bytes.length = CommandArgs.size ∧ commandIndex r.bytes < commandsLen
    | .numConns, n   => n = g.count
    | _, _           => True

/-- A message of no known kind leads back to the accept loop, and a command to be handled has a handler. -/
def InBounds (l : ServerLoc) (g : MsgView) : Prop :=
  (g.rejected = true → ∃ conn args, l = .loop conn args) ∧
    ∀ conn args, l = .handle conn args → commandIndex args < commandsLen

theorem inBounds_loop (conn args : Bytes) (g : MsgView) : InBounds (.loop conn args) g :=
  ⟨fun _ => ⟨conn, args, rfl⟩, by simp⟩

theorem inBounds_returned (code : Int) {g : MsgView} (hg : g.rejected = false) : InBounds (.returned code) g :=
  ⟨by simp [hg], by simp⟩

/-- **The loop over the devices** opens one for each announced name. -/
theorem createDevices_bounds (sockfd : Int) (conn : Bytes) (n i : Nat) (devices : List VirtualDevice) {g : MsgView}
    (hg : g.rejected = false) (hi : g.opened = i) (hn : i + n ≤ maxDevices)
    (hnames : ∀ j < i + n, Terminated g.msg j) :
    wp boundsContract (createDevices sockfd conn n i devices) (fun g' _ => g'.rejected = false) g := by
  induction n generalizing g i devices with
  | zero => exact hg
  | succ n ih =>
      subst hi
      have hlt : g.opened < g.opened + (n + 1) := by omega
      refine ⟨⟨hg, by omega, hnames _ hlt⟩, ?_⟩
      rintro fd g' ⟨rfl, -⟩
      -- the two `ioctl`s that follow change nothing in the view
      refine ⟨⟨hg, trivial⟩, ?_⟩
      rintro _ g' ⟨rfl, -⟩
      refine ⟨⟨hg, trivial⟩, ?_⟩
      rintro _ g' ⟨rfl, -⟩
      refine ih (g.opened + 1) _ hg rfl (by omega) ?_
      intro j hj
      exact hnames j (by omega)

theorem findSlot_bounds (n i openSlot : Nat) {g : MsgView} (hg : g.rejected = false) :
    wp boundsContract (findSlot n i openSlot) (fun g' _ => g' = g) g := by
  apply wp_findSlot
  intro i
  exact ⟨⟨hg, trivial⟩, fun _ _ h => h.1⟩

/-- **An input stream** that fits the tables is given its devices within them. -/
theorem acceptInput_bounds (fd : Int) (rest : Bytes) {g : MsgView} (hg : g.rejected = false) (h0 : g.opened = 0)
    (hlen : g.msg.length = NewConnection.size) (hfits : g.count < maxConnections → FitsTables g.msg) :
    wp boundsContract (acceptInput fd (g.msg ++ rest)) (fun g' _ => g'.rejected = false) g := by
  refine ⟨⟨hg, trivial⟩, ?_⟩
  rintro _ g ⟨rfl, rfl⟩
  show wp _ (if maxConnections ≤ g.count then _ else _) _ _
  by_cases hmax : maxConnections ≤ g.count
  · rw [if_pos hmax]
    exact hg
  rw [if_neg hmax]
  obtain ⟨hle, hnames⟩ := hfits (Nat.not_le.mp hmax)
  have hcount : (NewConnection.numDevicesAt g.msg).toInt.toNat ≤ maxDevices := by omega
  refine ⟨⟨hg, trivial⟩, ?_⟩
  rintro _ g ⟨rfl, -⟩
  show wp _ (findSlot g.count 0 0 >>= _) _ _
  refine wp_seq (findSlot_bounds g.count 0 0 hg) ?_
  rintro g slot rfl
  rw [NewConnection.numDevicesAt_append hlen]
  refine wp_seq (createDevices_bounds fd _ _ 0 [] hg h0 (by rwa [Nat.zero_add]) ?_) ?_
  · intro j hj
    exact hnames j (by rwa [Nat.zero_add] at hj)
  intro g devices hg
  refine ⟨⟨hg, trivial⟩, ?_⟩
  rintro _ g ⟨rfl, -⟩
  refine ⟨⟨hg, trivial⟩, ?_⟩
  rintro _ g ⟨rfl, -⟩
  refine ⟨⟨hg, trivial⟩, ?_⟩
  rintro _ g ⟨rfl, -⟩
  exact hg

/-- **An accepted connection** whose first message is known. -/
theorem acceptConn_bounds (fd : Int) (rest args : Bytes) {g : MsgView} (hg : g.rejected = ofNoKind g.msg)
    (h0 : g.opened = 0) (hlen : g.msg.length = NewConnection.size) (hfits : Announces g.count g.msg) :
    wp boundsContract (acceptConn fd (g.msg ++ rest) args) (fun g' l => InBounds l g') g := by
  have htype := NewConnection.typeAt_append hlen rest
  unfold acceptConn
  split
  · next hty =>
    rw [htype] at hty
    have hin : g.rejected = false := by simp [hg, ofNoKind, hty]
    refine wp_seq (acceptInput_bounds fd rest hin h0 hlen (hfits hty)) ?_
    intro g' _ _
    exact inBounds_loop _ _ g'
  · next hty =>
    rw [htype] at hty
    have hin : g.rejected = false := by simp [hg, ofNoKind, hty]
    refine ⟨⟨hin, trivial⟩, ?_⟩
    rintro r g ⟨rfl, hr⟩
    show wp _ (if r.ret < 0 then _ else _) _ _
    split
    · exact inBounds_returned _ hin
    · next hret =>
      obtain ⟨hsize, hindex⟩ := hr (Int.not_lt.mp hret)
      refine ⟨by simp [hin], ?_⟩
      rintro conn' args' ⟨⟩
      rwa [commandIndex_overlay hsize]
  · exact inBounds_loop _ _ g

/-- **Every block of the main thread** stays within the tables. -/
theorem bounds_block {l : ServerLoc} {g : MsgView} (hl : InBounds l g) (hg : g.rejected = false) :
    wp boundsContract (runServer l) (fun g' l' => InBounds l' g') g := by
  cases l with
  | entry conn args =>
      refine ⟨⟨hg, trivial⟩, ?_⟩
      rintro r g ⟨rfl, -⟩
      show wp _ (if r < 0 then _ else _) _ _
      split
      · exact inBounds_returned _ hg
      · exact inBounds_loop _ _ g
  | loop conn args =>
      refine ⟨⟨hg, trivial⟩, ?_⟩
      rintro fd g ⟨rfl, -⟩
      show wp _ (if fd < 0 then _ else _) _ _
      split
      · exact inBounds_returned _ hg
      refine ⟨⟨hg, trivial⟩, ?_⟩
      rintro r g' ⟨rfl, hr⟩
      show wp _ (if r.ret < 0 then _ else _) _ _
      split
      · next hret =>
        apply inBounds_returned
        have hneg : ¬ 0 ≤ r.ret := Int.not_le.mpr hret
        simp [MsgView.did, hneg]
      · next hret =>
        have hpos : 0 ≤ r.ret := Int.not_lt.mp hret
        obtain ⟨hsize, hfits⟩ := hr hpos
        refine acceptConn_bounds (g := g.did (.recvConn fd) r) fd _ args ?_ rfl hsize hfits
        simp [MsgView.did, hpos]
  | handle conn args =>
      have hindex : commandIndex args < commandsLen := hl.2 conn args rfl
      refine wp_seq (wp_neutral (commands_handles _ (has_handler hindex)) ?_) ?_
      · intro c hc
        cases c with
        | lockSender | unlockSender | sending | setSending _ | freeConfig | loadConfig _ | createSender
        | printf _ => exact ⟨⟨hg, trivial⟩, fun _ _ h => h.1⟩
        | _ => exact absurd trivial hc
      · rintro _ r ⟨rfl, -⟩
        show InBounds (if r = 1 then _ else _) _
        split
        · exact inBounds_returned _ hg
        · exact inBounds_loop _ _ _
  | returned code => exact hl

/-! ## The discipline of a listener -/

/-- The packet `m` selects one of `n` devices. -/
def Selects (n : BitVec 32) (m : Bytes) : Prop :=
  0 ≤ (InputPacket.ofMem m).devId.toInt ∧ (InputPacket.ofMem m).devId.toInt < n.toInt

instance (n : BitVec 32) (m : Bytes) : Decidable (Selects n m) := inferInstanceAs (Decidable (_ ∧ _))

/-- A listener of `n` devices writes to one of them, if whole packets select them. -/
def packetContract (n : BitVec 32) : Contract listenerI Unit where
  pre _ c := match c with
    | .write devId _ => 0 ≤ devId.toInt ∧ devId.toInt < n.toInt
    | _              => True
  post _ c r _ := match c, r with
    | .read, r => r.bytes.length = InputPacket.size → Selects n r.bytes
    | _, _     => True

theorem selects_overlay {n : BitVec 32} {packet m : Bytes} (hlen : m.length = InputPacket.size) (h : Selects n m) :
    Selects n (overlay packet m) := by
  have hdev : (InputPacket.ofMem (overlay packet m)).devId = (InputPacket.ofMem m).devId := by
    simp only [InputPacket.ofMem, bytesInt, overlay]
    rw [List.take_append_of_le_length (by rw [hlen]; decide)]
  unfold Selects
  rw [hdev]
  exact h

/-- **Every block of a listener** stays within its devices. -/
theorem packet_verified (n : BitVec 32) :
    Thread.Verified (packetContract n) spawnListenerThread fun _ _ => True := by
  intro l g _
  cases l with
  | exited => trivial
  | loop packet =>
      refine ⟨trivial, ?_⟩
      intro r _ hr
      show wp _ (Listener.handleRead packet r) _ _
      unfold Listener.handleRead
      split
      · next hret =>
        have hpos : 0 ≤ r.ret := by
          rw [hret]
          exact Int.natCast_nonneg _
        have hlen : r.bytes.length = InputPacket.size := by
          have hbytes := ReadResult.ret_eq_length hpos
          omega
        exact ⟨selects_overlay hlen (hr hlen), fun _ _ _ => trivial⟩
      · split
        · exact ⟨trivial, fun _ _ _ => ⟨trivial, fun _ _ _ => ⟨trivial, fun _ _ _ => trivial⟩⟩⟩
        · trivial

namespace Daemon

variable {s s' : Daemon} {e : Event} {tr : List Event}

/-! ## The invariant -/

/-- The peers' messages to the main thread come whole, if they come at all. -/
def Complete : Event → Prop
  | .main (.did (.recvConn _) r) => 0 ≤ r.ret → r.bytes.length = NewConnection.size
  | .main (.did (.recvArgs _) r) => 0 ≤ r.ret → r.bytes.length = CommandArgs.size
  | _                            => True

/-- A message received fits the tables it is used with. -/
def InTable (s : Daemon) : Event → Prop
  | .main (.did (.recvConn _) r) => Announces s.numConns r.bytes
  | .main (.did (.recvArgs _) r) => commandIndex r.bytes < commandsLen
  | .listener m (.did .read r)   =>
      ∀ d ∈ s.listeners[m]?, r.bytes.length = InputPacket.size → Selects d.args.numDevices r.bytes
  | _                            => True

/-- The main thread keeps `boundsContract`, and the listeners `packetContract`. -/
structure BoundsInv (tr : List Event) (s : Daemon) : Prop where
  main      : s.main.Ok boundsContract InBounds (msgView tr)
  count     : (msgView tr).count = s.numConns
  listeners : ∀ (m : Nat) (d : ListenerThread), s.listeners[m]? = some d →
    d.thread.Ok (packetContract d.args.numDevices) (fun _ _ => True) ()

theorem boundsInv_init (cfg : Config) (conn args : Bytes) : BoundsInv [] (init cfg conn args) where
  main := bounds_block (l := .entry conn args) ⟨by simp [msgView], by simp⟩ rfl
  count := rfl
  listeners := fun _ _ h => by simp [init] at h

/-- The count of the view is the daemon's. -/
theorem count_step {g : MsgView} (hcount : g.count = s.numConns) (h : Step s e s') : (g.after e).count = s'.numConns := by
  cases e with
  | main a =>
      cases a with
      | jump l =>
          rw [shared_main_jump h]
          exact hcount
      | did c r =>
          have hsh := shared_call h
          by_cases hc : c = .incrNumConns
          · subst hc
            rw [← Option.some.inj hsh]
            simp [MsgView.after, MsgView.did, hcount]
          · rw [(Shared.serverEffect_frame hsh).numConns hc, ← hcount]
            cases c with
            | incrNumConns => exact absurd rfl hc
            | _ => rfl
  | sender i a => rw [shared_sender h]; exact hcount
  | listener i a => rw [shared_listener h]; exact hcount
  | locker i a => rw [shared_locker h]; exact hcount

/-- **Step lemma.** -/
theorem boundsInv_step (hinv : BoundsInv tr s) (hc : Complete e) (hin : InTable s e) (h : Step s e s') :
    BoundsInv (tr ++ [e]) s' := by
  constructor
  · rw [msgView_snoc]
    apply mainOk_step h hinv.main
    · intro l he hl
      subst he
      exact bounds_block ⟨by simp [MsgView.after], hl.2⟩ rfl
    · intro c r he _
      subst he
      refine ⟨rfl, ?_⟩
      cases c with
      | recvConn fd =>
          intro hpos
          refine ⟨hc hpos, ?_⟩
          rw [hinv.count]
          exact hin
      | recvArgs fd => exact fun hpos => ⟨hc hpos, hin⟩
      | numConns =>
          rw [hinv.count]
          exact of_decide_eq_true (Shared.check_eq.mp (shared_call h)).1
      | _ => trivial
    · intro he
      cases e with
      | main a => exact absurd rfl (he a)
      | _ => rfl
  · rw [msgView_snoc]
    exact count_step hinv.count h
  · intro m d' hd'
    rcases listener_cases h hd' with ⟨hd, -⟩ | ⟨a, d, he, hd, -, hargs, hf⟩ | ⟨-, slot, args, -, hnew⟩
    · exact hinv.listeners m d' hd
    · subst he
      rw [hargs]
      have hok := hinv.listeners m d hd
      cases a with
      | jump l => exact hok.jump (packet_verified _) hf
      | did c r =>
          refine hok.did hf ?_
          cases c with
          | read => exact hin d hd
          | _ => trivial
    · rw [hnew]
      exact Thread.ok_start (packet_verified _) trivial

/-! ## The law of the tables -/

/-- A call through the table of commands has an index below `COMMANDS_LEN`, a device is created at an index
    within both arrays and for a name that ends, and a packet goes to one of its connection's devices. -/
structure TablesOk (tr : List Event) (s : Daemon) : Prop where
  dispatch : ∀ conn args, s.main.rest = .ret (.handle conn args) → commandIndex args < commandsLen
  handler  : s.main.rest.next ≠ some .wild
  device   : s.main.rest.next = some .openUinput →
    (msgView tr).opened < maxDevices ∧ Terminated (msgView tr).msg (msgView tr).opened
  packet   : ∀ d ∈ s.listeners, ∀ devId ie, d.thread.rest.next = some (.write devId ie) →
    0 ≤ devId.toInt ∧ devId.toInt < d.args.numDevices.toInt

theorem BoundsInv.tables (hinv : BoundsInv tr s) : TablesOk tr s := by
  constructor
  · intro conn args hr
    exact (hinv.main.of_ret hr).2 conn args rfl
  · intro hn
    obtain ⟨k, hr⟩ := Prog.next_eq hn
    exact (hinv.main.of_call hr).1.2
  · intro hn
    obtain ⟨k, hr⟩ := Prog.next_eq hn
    exact (hinv.main.of_call hr).1.2
  · intro d hd devId ie hn
    obtain ⟨m, hm⟩ := List.getElem?_of_mem hd
    obtain ⟨k, hr⟩ := Prog.next_eq hn
    exact ((hinv.listeners m d hm).of_call hr).1

/-- A whole message of no known kind is rejected: it changes nothing, and the accept loop goes on at once. -/
def Rejects (s : Daemon) : Prop :=
  ∀ fd r s', Step s (mainCall (.recvConn fd) r) s' → r.bytes.length = NewConnection.size → ofNoKind r.bytes = true →
    s' = { s with main := s'.main } ∧ ∃ conn args, s'.main.rest = .ret (.loop conn args)

theorem BoundsInv.rejects (hinv : BoundsInv tr s) : Rejects s := by
  intro fd r s' h hlen hkind
  have hpos : 0 ≤ r.ret := by
    cases r with
    | error => cases hlen
    | data d hd => exact Int.natCast_nonneg _
  have hannounce : Announces s.numConns r.bytes := by
    intro htype
    simp [ofNoKind, htype] at hkind
  have hwhole : Complete (mainCall (.recvConn fd) r) := fun _ => hlen
  have hinv' := boundsInv_step hinv hwhole hannounce h
  have hrej : (msgView (tr ++ [mainCall (.recvConn fd) r])).rejected = true := by
    rw [msgView_snoc]
    simp [MsgView.after, MsgView.did, hpos, hkind]
  constructor
  · obtain ⟨t, sh, -, hsh, rfl⟩ := step_main h
    cases hsh
    simp [newSenders, newListeners]
  · cases hr : s'.main.rest with
    | ret l =>
        obtain ⟨conn, args, rfl⟩ := (hinv'.main.of_ret hr).1 hrej
        exact ⟨conn, args, rfl⟩
    | call c k =>
        have hpre := (hinv'.main.of_call hr).1.1
        rw [hrej] at hpre
        cases hpre

instance (e : Event) : Decidable (Complete e) := by
  unfold Complete
  split <;> infer_instance

instance (count : Nat) (m : Bytes) : Decidable (Announces count m) :=
  inferInstanceAs (Decidable (_ = _ → _ < _ → _))

instance (s : Daemon) (e : Event) : Decidable (InTable s e) := by
  unfold InTable
  split <;> infer_instance

/-- The `NewConnection` of an input stream that announces `n` devices called `name`. -/
def announcing (n : Nat) (name : Bytes) : Bytes :=
  NewConnection.encode ⟨.inputStream, BitVec.ofNat 32 n, List.replicate maxDevices name⟩

/-- `m` announces an input stream, and the loop over its devices begins. -/
def announceEvents (m : Bytes) : List Event :=
  [mainCall .accept (4 : Int), mainCall (.recvConn 4) (received m), mainCall .numConns (0 : Nat),
    mainCall .lockListener ()]

/-- Device `i`, with no name of its own, is created. -/
def deviceEvents (i : Nat) : List Event :=
  [mainCall .openUinput (i : Int), mainCall (.devSetup i devPrefix) (), mainCall (.devCreate i) ()]

/-- A listener of one device is created, and gets the packet `p`. -/
def packetEvents (p : InputPacket) : List Event :=
  announceEvents (announcing 1 (List.replicate 64 0)) ++ deviceEvents 0 ++
  [mainCall .unlockListener (),
    mainCall (.createListener 0
      ⟨4, 1, [⟨4, 0, strcat (strcpy (List.replicate 80 0) devPrefix) [], List.replicate 64 0⟩], 0⟩) (),
    .listener 0 (.did .read (received p.encode))]

/-- Whole messages lead the daemon along `tr` out of its tables. -/
def Overruns (tr : List Event) : Prop :=
  ∃ s, Run (Restrict (fun _ e => Complete e) Step) (init emptyConfig [] []) tr s ∧ ¬ TablesOk tr s

/-- A command with the code 7 arrives. -/
def wildCommand : List Event :=
  let m := CommandArgs.encode ⟨.other 7, 0, List.replicate 256 0⟩
  boot ++ receive m ++ [.main (.jump (.handle commandConn m))]

/-- An input stream announces nine devices. -/
def nineDevices : List Event :=
  boot ++ announceEvents (announcing 9 (List.replicate 64 0)) ++ (List.range 8).flatMap deviceEvents

/-- An input stream announces a device whose name has no end. -/
def endlessName : List Event := boot ++ announceEvents (announcing 1 (List.replicate 64 1))

end Daemon

end IOSwitch
