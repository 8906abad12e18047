import IOSwitch.Lib.Bytes

/-!
# `Server.Types` — the structures of `server.h` and `commands.h`

The records that the daemon keeps, and the three messages that cross a socket. A message is a C struct sent
as it lies in memory, so each has an `encode` to its bytes, and the receiving side reads the fields back out
of a buffer at the offsets of the struct (x86-64: 4-byte `int` and `enum`, `struct input_event` of 24 bytes
aligned to 8).

Fields that no modelled function reads (`opt`, `server_port`, `address`, the unused fields of
`struct uinput_setup`) are left out.
-/

namespace IOSwitch

open Lib

/-- `MAX_DEVICES`. -/
def maxDevices : Nat := 8

/-- `MAX_CONNECTIONS`. -/
def maxConnections : Nat := 8

/-! ## Commands -/

/-- `CommandType`; `other` stands for the codes from `COMMANDS_LEN` on, which have no handler. -/
inductive CommandType where
  | none | list | start | stop | switch | reload | kill
  | other (code : Nat)
  deriving DecidableEq

def CommandType.ofCode : Nat → CommandType
  | 0 => .none
  | 1 => .list
  | 2 => .start
  | 3 => .stop
  | 4 => .switch
  | 5 => .reload
  | 6 => .kill
  | n => .other n

def CommandType.code : CommandType → Nat
  | .none    => 0
  | .list    => 1
  | .start   => 2
  | .stop    => 3
  | .switch  => 4
  | .reload  => 5
  | .kill    => 6
  | .other n => n

/-- `CommandArgs`, the message that follows a `NewConnection` of type `COMMAND`. -/
structure CommandArgs where
  type         : CommandType
  reloadConfig : UInt8
  configPath   : Bytes
  deriving DecidableEq

namespace CommandArgs

/-- `sizeof(CommandArgs)`. -/
def size : Nat := 264

def encode (a : CommandArgs) : Bytes :=
  toLe 4 a.type.code ++ a.reloadConfig :: a.configPath ++ List.replicate 3 0

/-- The struct read out of the memory `m` it was received into. -/
def ofMem (m : Bytes) : CommandArgs where
  type         := .ofCode (ofLe (m.take 4))
  reloadConfig := m.getD 4 0
  configPath   := (m.drop 5).take 256

end CommandArgs

/-! ## Connections -/

/-- `ConnectionType`; `other` stands for every code that names no kind of connection. -/
inductive ConnectionType where
  | inputStream | command
  | other (code : Nat)
  deriving DecidableEq

def ConnectionType.ofCode : Nat → ConnectionType
  | 0 => .inputStream
  | 1 => .command
  | n => .other n

def ConnectionType.code : ConnectionType → Nat
  | .inputStream => 0
  | .command     => 1
  | .other n     => n

/-- `NewConnection`, the first message on every connection. -/
structure NewConnection where
  type        : ConnectionType
  numDevices  : BitVec 32
  deviceNames : List Bytes
  deriving DecidableEq

namespace NewConnection

/-- `sizeof(NewConnection)`. -/
def size : Nat := 520

/-- `char device_names[8][64]`, all zero. -/
def noNames : List Bytes := List.replicate maxDevices (List.replicate 64 0)

def encode (c : NewConnection) : Bytes :=
  toLe 4 c.type.code ++ (intBytes c.numDevices ++ c.deviceNames.flatten)

/-- `strcpy(conn.device_names[i], name)`. -/
def copyName (c : NewConnection) (i : Nat) (name : Bytes) : NewConnection :=
  { c with deviceNames := c.deviceNames.modify i (strcpy · name) }

/-- `conn.type`, for a `conn` that lies in memory as `m`. -/
def typeAt (m : Bytes) : ConnectionType := .ofCode (ofLe (m.take 4))

/-- `conn.num_devices`. -/
def numDevicesAt (m : Bytes) : BitVec 32 := bytesInt (m.drop 4)

/-- What the pointer `conn.device_names[i]` points to. -/
def deviceNameAt (m : Bytes) (i : Nat) : Bytes := m.drop (8 + 64 * i)

/-- A whole message is all that the type is read from. -/
theorem typeAt_append {m : Bytes} (h : m.length = size) (rest : Bytes) : typeAt (m ++ rest) = typeAt m := by
  unfold typeAt
  rw [List.take_append_of_le_length (by rw [h]; decide)]

/-- Likewise for the number of devices. -/
theorem numDevicesAt_append {m : Bytes} (h : m.length = size) (rest : Bytes) :
    numDevicesAt (m ++ rest) = numDevicesAt m := by
  unfold numDevicesAt bytesInt
  rw [List.drop_append_of_le_length (by rw [h]; decide), List.take_append_of_le_length]
  rw [List.length_drop, h]
  decide

end NewConnection

/-- `Config`: two strings' worth of settings and the devices to forward. -/
structure Config where
  destIp      : Bytes
  destPort    : UInt16
  deviceNames : List Bytes
  numDevices  : UInt16
  deriving DecidableEq

/-- `config->device_names[i]`. -/
def Config.deviceName (c : Config) (i : Nat) : Bytes := c.deviceNames.getD i []

/-! ## Input events and packets -/

/-- `struct input_event`, as its 24 bytes. -/
structure InputEvent where
  bytes : Bytes
  size  : bytes.length = 24
  deriving DecidableEq

namespace InputEvent

def zero : InputEvent := ⟨List.replicate 24 0, by decide⟩

/-- The event whose bytes stand at the front of `m`. -/
def ofMem (m : Bytes) : InputEvent := ⟨(m ++ List.replicate 24 0).take 24, by simp⟩

/-- The event after a call has stored the bytes `d` at its front. -/
def fill (e : InputEvent) (d : Bytes) : InputEvent := ofMem (overlay e.bytes d)

/-- `ie.type`, which stands behind the 16 bytes of the time. -/
def type (e : InputEvent) : Nat := ofLe ((e.bytes.drop 16).take 2)

@[simp] theorem ofMem_bytes (e : InputEvent) (s : Bytes) : ofMem (e.bytes ++ s) = e := by
  obtain ⟨b, hb⟩ := e
  simp only [ofMem, mk.injEq, List.append_assoc]
  exact List.take_left' hb

/-- A whole event overwrites the one before it. -/
theorem fill_bytes (e e' : InputEvent) : e.fill e'.bytes = e' := by
  rw [fill, overlay_full (by rw [e.size, e'.size]), ← List.append_nil e'.bytes]
  exact ofMem_bytes e' []

/-- So do the bytes of one. -/
theorem fill_whole (e : InputEvent) {d : Bytes} (h : d.length = 24) : e.fill d = ofMem d := by
  rw [fill, overlay_full (by rw [e.size, h])]

end InputEvent

/-- `EV_SYN`, the type of the event that ends a report. -/
def evSyn : Nat := 0

/-- `InputPacket`: an event and the index of the device it belongs to. -/
structure InputPacket where
  devId : BitVec 32
  ie    : InputEvent
  deriving DecidableEq

namespace InputPacket

/-- `sizeof(InputPacket)`: the event is aligned to 8, after four bytes of padding. -/
def size : Nat := 32

def zero : InputPacket := ⟨0, .zero⟩

def encode (p : InputPacket) : Bytes := intBytes p.devId ++ (List.replicate 4 0 ++ p.ie.bytes)

/-- The packet read out of the memory `m` it was received into. -/
def ofMem (m : Bytes) : InputPacket := ⟨bytesInt m, .ofMem (m.drop 8)⟩

@[simp] theorem encode_length (p : InputPacket) : p.encode.length = size := by
  simp [encode, p.ie.size, size]

@[simp] theorem ofMem_encode (p : InputPacket) : ofMem p.encode = p := by
  have hdrop : p.encode.drop 8 = p.ie.bytes ++ [] := by
    rw [encode, ← List.append_assoc, List.append_nil]
    exact List.drop_left' (by simp)
  simp only [ofMem, hdrop, InputEvent.ofMem_bytes]
  simp [encode]

end InputPacket

/-! ## The receiving side -/

/-- `VirtualDevice`; of `dev_setup` only the name is kept. -/
structure VirtualDevice where
  sockfd    : Int
  devfd     : Int
  setupName : Bytes
  name      : Bytes
  deriving DecidableEq

/-- `ListenerArgs`; `connection` is the index that `&server->connections[open_slot]` points to. -/
structure ListenerArgs where
  sockfd     : Int
  numDevices : BitVec 32
  devices    : List VirtualDevice
  connection : Nat
  deriving DecidableEq

end IOSwitch
