import IOSwitch.Lib.Framing
import IOSwitch.Server.Sender
import IOSwitch.Server.Commands

/-!
# `Wire.Handshake` — the message that opens an input stream

`spawn_sender_thread` fills a `NewConnection` with the names of its devices; `run_server` reads the names back
out of the memory that the message was received into. `hello` is the message, and the `_hello` lemmas say that
every field is read back as it was written, whatever lies behind the message in memory.
-/

namespace IOSwitch

open Lib

namespace Config

/-- `conn` after the names of the first `n` devices have been copied. -/
def conn (c : Config) : Nat → NewConnection
  | 0     => ⟨.inputStream, BitVec.ofNat 32 c.numDevices.toNat, NewConnection.noNames⟩
  | n + 1 => (c.conn n).copyName n (c.deviceName n)

end Config

/-- A config that a `NewConnection` has room for: at most 8 devices, names of at most 63 bytes. -/
structure SenderConfig extends Config where
  few   : numDevices.toNat ≤ maxDevices
  short : ∀ i < numDevices.toNat, (cstr (toConfig.deviceName i)).length < 64

namespace SenderConfig

variable (c : SenderConfig)

/-- The number of devices, `n`. -/
def count : Nat := c.numDevices.toNat

/-- The name of the `i`-th device, as a string. -/
def name (i : Nat) : Bytes := cstr (c.deviceName i)

/-- The `NewConnection` of a sender with this config. -/
def hello : Bytes := (c.conn c.count).encode

/-! ## The fields of the message -/

theorem conn_type (n : Nat) : (c.conn n).type = .inputStream := by
  induction n with
  | zero => rfl
  | succ n ih => exact ih

theorem conn_numDevices (n : Nat) : (c.conn n).numDevices = BitVec.ofNat 32 c.count := by
  induction n with
  | zero => rfl
  | succ n ih => exact ih

/-- The names that have been copied, and zeros for the others. -/
theorem conn_deviceNames (n i : Nat) (hi : i < maxDevices) :
    (c.conn n).deviceNames[i]? =
      some (if i < n then strcpy (List.replicate 64 0) (c.deviceName i) else List.replicate 64 0) := by
  induction n with
  | zero => simp [Config.conn, NewConnection.noNames, hi]
  | succ n ih =>
      rw [Config.conn, NewConnection.copyName, List.getElem?_modify, ih]
      by_cases hn : n = i
      · subst hn
        simp
      · have hiff : i < n + 1 ↔ i < n := by omega
        simp [hn, hiff]

theorem conn_deviceNames_length (n : Nat) : (c.conn n).deviceNames.length = maxDevices := by
  induction n with
  | zero => exact List.length_replicate
  | succ n ih => rw [Config.conn, NewConnection.copyName, List.length_modify, ih]

/-- Every name fits its 64 bytes. -/
theorem conn_deviceNames_frames : ∀ f ∈ (c.conn c.count).deviceNames, f.length = 64 := by
  intro f hf
  obtain ⟨i, hi⟩ := List.getElem?_of_mem hf
  have hlt : i < maxDevices := by
    rw [← c.conn_deviceNames_length c.count]
    exact (List.getElem?_eq_some_iff.mp hi).1
  rw [c.conn_deviceNames _ i hlt] at hi
  obtain rfl := Option.some.inj hi
  by_cases hc : i < c.count
  · rw [if_pos hc, strcpy_length (by simpa using c.short i hc), List.length_replicate]
  · rw [if_neg hc, List.length_replicate]

theorem hello_length : c.hello.length = NewConnection.size := by
  have hflat := length_flatten_of_frames c.conn_deviceNames_frames
  rw [conn_deviceNames_length] at hflat
  rw [hello, NewConnection.encode, List.length_append, List.length_append, toLe_length, intBytes_length, hflat]
  rfl

/-! ## Reading it back -/

theorem typeAt_hello (rest : Bytes) : NewConnection.typeAt (c.hello ++ rest) = .inputStream := by
  rw [NewConnection.typeAt, hello, NewConnection.encode, List.append_assoc, List.take_left' (toLe_length 4 _),
    conn_type]
  rfl

theorem numDevicesAt_hello (rest : Bytes) :
    NewConnection.numDevicesAt (c.hello ++ rest) = BitVec.ofNat 32 c.count := by
  rw [NewConnection.numDevicesAt, hello, NewConnection.encode, List.append_assoc, List.drop_left' (toLe_length 4 _),
    List.append_assoc, bytesInt_intBytes, conn_numDevices]

/-- The number of devices as the loop of `run_server` counts it. -/
theorem numDevicesAt_hello_toNat (rest : Bytes) :
    (NewConnection.numDevicesAt (c.hello ++ rest)).toInt.toNat = c.count := by
  have hfew : c.count ≤ 8 := c.few
  rw [numDevicesAt_hello, BitVec.toInt_eq_toNat_of_lt (by rw [BitVec.toNat_ofNat]; omega), BitVec.toNat_ofNat]
  omega

theorem deviceNameAt_hello {i : Nat} (hi : i < c.count) (rest : Bytes) :
    cstr (NewConnection.deviceNameAt (c.hello ++ rest) i) = c.name i := by
  have hmax : i < maxDevices := Nat.lt_of_lt_of_le hi c.few
  have hlt : i < (c.conn c.count).deviceNames.length := by rw [conn_deviceNames_length]; exact hmax
  have hname : (c.conn c.count).deviceNames[i] = strcpy (List.replicate 64 0) (c.deviceName i) := by
    have hget := c.conn_deviceNames c.count i hmax
    rw [if_pos hi, List.getElem?_eq_getElem hlt] at hget
    exact Option.some.inj hget
  have hsize : 64 * i ≤ (c.conn c.count).deviceNames.flatten.length := by
    rw [length_flatten_of_frames c.conn_deviceNames_frames, Nat.mul_comm]
    exact Nat.mul_le_mul_right 64 hlt.le
  -- the type and the number of devices take the first 8 bytes
  have hdrop : NewConnection.deviceNameAt (c.hello ++ rest) i =
      (c.conn c.count).deviceNames.flatten.drop (64 * i) ++ rest := by
    rw [NewConnection.deviceNameAt, hello, NewConnection.encode, ← List.append_assoc, List.append_assoc,
      ← List.drop_drop, List.drop_left' (by rw [List.length_append, toLe_length, intBytes_length]),
      List.drop_append_of_le_length hsize]
  rw [hdrop, drop_flatten_frames c.conn_deviceNames_frames, List.drop_eq_getElem_cons hlt, List.flatten_cons, hname,
    List.append_assoc, cstr_strcpy_append]
  rfl

end SenderConfig

end IOSwitch
