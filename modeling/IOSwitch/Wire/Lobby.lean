import IOSwitch.Lib.Lists
import IOSwitch.Server.Calls
import IOSwitch.Wire.Handshake

/-!
# `Wire.Lobby` — how `run_server` gives a connection its listener

The main thread's share in the routing: it accepts a connection, receives the `NewConnection`, creates one
virtual device for each name in it, and creates a listener with these devices. `Lobby` is what it can see of
the connections and the devices; `lobbyContract` says what it makes of them, given that the peers' first
messages are those of `spawn_sender_thread`, and `lobby_verified` that every block of `run_server` does so.
-/

namespace IOSwitch

open Lib Server

/-! ## The devices of a listener -/

/-- The device that `create_device` returns when uinput is opened as `devfd`. -/
def deviceFor (sockfd devfd : Int) (name : Bytes) : VirtualDevice :=
  ⟨sockfd, devfd, strcat (strcpy (List.replicate 80 0) devPrefix) name, strcpy (List.replicate 64 0) name⟩

/-- The name that the device is set up with. -/
def deviceName (name : Bytes) : Bytes := devPrefix ++ name

/-- The arguments of the listener for a sender with config `c`, when its devices are those from `base` on. -/
def argsFor (c : SenderConfig) (sockfd : Int) (base slot : Nat) : ListenerArgs :=
  ⟨sockfd, BitVec.ofNat 32 c.count, (List.range c.count).map fun i => deviceFor sockfd (base + i : Nat) (c.name i),
    slot⟩

theorem cstr_setupName (name : Bytes) :
    cstr (strcat (strcpy (List.replicate 80 0) devPrefix) name) = deviceName (cstr name) := by
  have hdev : cstr devPrefix = devPrefix := by decide
  rw [cstr_strcat, cstr_strcpy, hdev, deviceName]

/-- Only the string counts. -/
theorem deviceFor_cstr (sockfd devfd : Int) (name : Bytes) :
    deviceFor sockfd devfd (cstr name) = deviceFor sockfd devfd name := by
  have hidem : cstr (cstr name) = cstr name := cstr_of_nulFree (nulFree_cstr name)
  simp only [deviceFor, strcat, strcpy, hidem]

/-- The names fit the buffers they are copied into: 80 bytes in the setup record, 64 in the device. -/
theorem deviceFor_fits (c : SenderConfig) {i : Nat} (hi : i < c.count) (sockfd devfd : Int) :
    (deviceFor sockfd devfd (c.name i)).setupName.length = 80 ∧
      (deviceFor sockfd devfd (c.name i)).name.length = 64 := by
  have hshort : (c.name i).length < 64 := c.short i hi
  have hidem : cstr (c.name i) = c.name i := cstr_of_nulFree (nulFree_cstr _)
  have hdev : (cstr devPrefix).length = 13 := by decide
  constructor
  · rw [deviceFor, strcat, overlay_length]
    · rw [strcpy_length (by rw [hdev]; decide), List.length_replicate]
    · rw [cstr_strcpy, hidem, List.length_append, List.length_append, hdev,
        strcpy_length (by rw [hdev]; decide), List.length_replicate, List.length_singleton]
      omega
  · exact strcpy_length (by rw [hidem, List.length_replicate]; exact hshort)

/-! ## The discipline of the main thread -/

/-- For each peer, whether its first message has been received; the sockets that listeners were created for;
    the uinput devices, each with its name and whether it was created; and how many of them listeners have. -/
structure Lobby where
  greeted : List Bool
  sockets : List Int
  devices : List (Bytes × Bool)
  owned   : Nat

/-- A listener with arguments `args` may be created: its peer has been heard and has none, and the devices that
    no listener has are those the peer asked for. -/
def Admits (cs : List SenderConfig) (g : Lobby) (slot : Nat) (args : ListenerArgs) : Prop :=
  ∃ (j : Nat) (c : SenderConfig), cs[j]? = some c ∧ g.greeted[j]? = some true ∧ (j : Int) ∉ g.sockets ∧
    args = argsFor c j g.owned slot ∧
    ∃ before, g.devices = before ++ (List.range c.count).map (fun i => (deviceName (c.name i), true)) ∧
      before.length = g.owned

/-- `cs` are the configs of the peers; the `j`-th is accepted as descriptor `j`. -/
def lobbyContract (cs : List SenderConfig) : Contract serverI Lobby where
  pre g call := match call with
    | .recvConn fd => ∀ j : Nat, fd = j → j < cs.length → g.greeted[j]? = some false
    | .devSetup fd _ | .devCreate fd => 0 ≤ fd ∧ g.owned ≤ fd.toNat
    | .createListener slot args => Admits cs g slot args
    | _ => True
  post g call r g' := match call, r with
    | .accept, fd =>
        g' = g ∧ ∀ j : Nat, fd = j → j < cs.length → g.greeted[j]? = some false ∧ (j : Int) ∉ g.sockets
    | .recvConn fd, r =>
        (r.ret < 0 ∧ g' = g) ∨
        (0 ≤ r.ret ∧ ∃ (j : Nat) (c : SenderConfig), fd = j ∧ cs[j]? = some c ∧ r.bytes = c.hello ∧
          g' = { g with greeted := g.greeted.set j true }) ∨
        (0 ≤ r.ret ∧ r.bytes.length = NewConnection.size ∧ NewConnection.typeAt r.bytes ≠ .inputStream ∧ g' = g)
    | .openUinput, fd => fd = g.devices.length ∧ g' = { g with devices := g.devices ++ [([], false)] }
    | .devSetup fd n, _ => g' = { g with devices := g.devices.modify fd.toNat fun d => (n, d.2) }
    | .devCreate fd, _ => g' = { g with devices := g.devices.modify fd.toNat fun d => (d.1, true) }
    | .createListener _ args, _ =>
        g' = { g with sockets := g.sockets ++ [args.sockfd], owned := g.owned + args.devices.length }
    | _, _ => g' = g

/-- Between blocks every device belongs to a listener. -/
def AllOwned (_ : ServerLoc) (g : Lobby) : Prop := g.owned = g.devices.length

variable {cs : List SenderConfig} {g : Lobby}

/-- **`create_device`** sets up and creates the next device. -/
theorem createDevice_spec (sockfd : Int) (name : Bytes) (howned : g.owned ≤ g.devices.length) :
    wp (lobbyContract cs) (createDevice sockfd name)
      (fun g' dev => dev = deviceFor sockfd g.devices.length name ∧
        g' = { g with devices := g.devices ++ [(deviceName (cstr name), true)] }) g := by
  refine ⟨trivial, ?_⟩
  rintro fd _ ⟨hfd, rfl⟩
  have hnew : 0 ≤ fd ∧ g.owned ≤ fd.toNat := by
    rw [hfd, Int.toNat_natCast]
    exact ⟨Int.natCast_nonneg _, howned⟩
  refine ⟨hnew, ?_⟩
  rintro _ _ rfl
  refine ⟨hnew, ?_⟩
  rintro _ _ rfl
  rw [hfd]
  refine ⟨rfl, ?_⟩
  rw [cstr_setupName, Int.toNat_natCast]
  congr 1
  rw [modify_last, modify_last]

/-- **The loop over the devices** of a connection. -/
theorem createDevices_spec (sockfd : Int) (conn : Bytes) (n i : Nat) (devices : List VirtualDevice)
    (howned : g.owned ≤ g.devices.length) :
    wp (lobbyContract cs) (createDevices sockfd conn n i devices)
      (fun g' ds =>
        ds = devices ++ (List.range n).map (fun k =>
          deviceFor sockfd (g.devices.length + k : Nat) (NewConnection.deviceNameAt conn (i + k))) ∧
        g' = { g with devices := g.devices ++ (List.range n).map fun k =>
          (deviceName (cstr (NewConnection.deviceNameAt conn (i + k))), true) }) g := by
  induction n generalizing g i devices with
  | zero =>
      refine ⟨(List.append_nil _).symm, ?_⟩
      simp
  | succ n ih =>
      refine wp_seq (createDevice_spec sockfd _ howned) ?_
      rintro _ dev ⟨rfl, rfl⟩
      have howned' : g.owned ≤ (g.devices ++ [(deviceName (cstr (NewConnection.deviceNameAt conn i)), true)]).length :=
        howned.trans (by rw [List.length_append]; exact Nat.le_add_right _ _)
      refine wp_mono (ih (i + 1) _ howned') ?_
      rintro _ ds ⟨rfl, rfl⟩
      have hshift : ∀ k, i + 1 + k = i + (k + 1) := fun k => by omega
      have hbase : ∀ k, g.devices.length + 1 + k = g.devices.length + (k + 1) := fun k => by omega
      rw [List.range_succ_eq_map]
      constructor
      · simp [List.append_assoc, hshift, hbase, Function.comp_def]
      · simp [List.append_assoc, hshift, Function.comp_def]

theorem findSlot_lobby (n i openSlot : Nat) :
    wp (lobbyContract cs) (findSlot n i openSlot) (fun g' _ => g' = g) g := by
  apply wp_findSlot
  intro i
  exact ⟨trivial, fun _ _ h => h⟩

/-- **The listener of a connection** gets a device for each name in the first message. -/
theorem acceptInput_admits {j : Nat} {c : SenderConfig} (hc : cs[j]? = some c) (hgreeted : g.greeted[j]? = some true)
    (hnew : (j : Int) ∉ g.sockets) (hall : g.owned = g.devices.length) (rest : Bytes) :
    wp (lobbyContract cs) (acceptInput j (c.hello ++ rest)) (fun g' _ => g'.owned = g'.devices.length) g := by
  -- the number of devices first: later steps would compute it out of the bytes
  simp only [acceptInput, c.numDevicesAt_hello_toNat]
  refine ⟨trivial, ?_⟩
  rintro numConns g rfl
  show wp _ (if maxConnections ≤ numConns then _ else _) _ _
  split
  · exact hall
  refine ⟨trivial, ?_⟩
  rintro _ g rfl
  show wp _ (findSlot numConns 0 0 >>= _) _ _
  refine wp_seq (findSlot_lobby _ _ _) ?_
  rintro g slot rfl
  refine wp_seq (createDevices_spec j _ _ 0 [] hall.le) ?_
  rintro _ devices ⟨rfl, rfl⟩
  -- what was read out of the message is the sender's own
  have hname : ∀ k ∈ List.range c.count,
      cstr (NewConnection.deviceNameAt (c.hello ++ rest) (0 + k)) = c.name k := by
    intro k hk
    rw [Nat.zero_add]
    exact c.deviceNameAt_hello (List.mem_range.mp hk) rest
  have hdevs : (List.range c.count).map (fun k => deviceFor j (g.devices.length + k : Nat)
      (NewConnection.deviceNameAt (c.hello ++ rest) (0 + k))) =
      (List.range c.count).map fun k => deviceFor j (g.devices.length + k : Nat) (c.name k) := by
    apply List.map_congr_left
    intro k hk
    rw [← hname k hk, deviceFor_cstr]
  have hnames : (List.range c.count).map (fun k =>
      (deviceName (cstr (NewConnection.deviceNameAt (c.hello ++ rest) (0 + k))), true)) =
      (List.range c.count).map fun k => (deviceName (c.name k), true) := by
    apply List.map_congr_left
    intro k hk
    rw [hname k hk]
  rw [c.numDevicesAt_hello, hdevs, hnames, List.nil_append]
  refine ⟨trivial, ?_⟩
  rintro _ _ rfl
  refine ⟨⟨j, c, hc, hgreeted, hnew, ?_, g.devices, rfl, hall.symm⟩, ?_⟩
  · rw [argsFor, hall]
  rintro _ _ rfl
  refine ⟨trivial, ?_⟩
  rintro _ _ rfl
  rw [wp_ret, List.length_append, List.length_map, List.length_map, List.length_range, hall]

/-- **One round of the accept loop** leaves no device without a listener. -/
theorem acceptOne_spec (conn args : Bytes) (hall : g.owned = g.devices.length) :
    wp (lobbyContract cs) (acceptOne conn args) (fun g' l => AllOwned l g') g := by
  refine ⟨trivial, ?_⟩
  rintro fd g ⟨rfl, hfresh⟩
  show wp _ (if fd < 0 then _ else _) _ _
  split
  · exact hall
  refine ⟨fun j hj hlt => (hfresh j hj hlt).1, ?_⟩
  intro r g' hr
  show wp _ (if r.ret < 0 then _ else _) _ _
  rcases hr with ⟨hneg, rfl⟩ | ⟨hpos, j, c, rfl, hc, hbytes, rfl⟩ | ⟨hpos, hlen, htype, rfl⟩
  · rw [if_pos hneg]
    exact hall
  · -- the first message of a peer
    rw [if_neg (Int.not_lt.mpr hpos)]
    have hj : j < cs.length := (List.getElem?_eq_some_iff.mp hc).1
    obtain ⟨hgreeted, hnew⟩ := hfresh j rfl hj
    have hset : (g.greeted.set j true)[j]? = some true :=
      List.getElem?_set_self (List.getElem?_eq_some_iff.mp hgreeted).1
    rw [hbytes, overlay, acceptConn, c.typeAt_hello]
    exact wp_seq (acceptInput_admits (g := { g with greeted := g.greeted.set j true }) hc hset hnew hall _)
      fun _ _ h => h
  · -- a message from elsewhere: no input stream
    rw [if_neg (Int.not_lt.mpr hpos)]
    rw [← NewConnection.typeAt_append hlen (conn.drop r.bytes.length)] at htype
    show wp _ (acceptConn fd (overlay conn r.bytes) args) _ _
    unfold acceptConn
    split
    · next h => exact absurd h htype
    · refine ⟨trivial, ?_⟩
      rintro r' _ rfl
      show wp _ (if r'.ret < 0 then _ else _) _ _
      split <;> exact hall
    · exact hall

/-- **Every block of the main thread** gives listeners the devices their peers asked for. -/
theorem lobby_verified (cs : List SenderConfig) : Thread.Verified (lobbyContract cs) runServer AllOwned := by
  intro l g hg
  cases l with
  | entry conn args =>
      refine ⟨trivial, ?_⟩
      rintro r _ rfl
      show wp _ (if r < 0 then _ else _) _ _
      split <;> exact hg
  | loop conn args => exact acceptOne_spec conn args hg
  | handle conn args =>
      refine wp_seq (wp_commands _ trivial fun c hc => ?_) ?_
      · cases c with
        | lockSender | unlockSender | sending | setSending _ | freeConfig | loadConfig _ | createSender
        | printf _ => exact ⟨trivial, fun _ _ h => h⟩
        | _ => exact absurd trivial hc
      · rintro _ r ⟨rfl, -⟩
        exact hg
  | returned code => exact hg

end IOSwitch
