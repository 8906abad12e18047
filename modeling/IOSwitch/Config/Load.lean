import IOSwitch.Lib.Block
import IOSwitch.Lib.Lists
import IOSwitch.Server.Types
import IOSwitch.Tokenizer.Load

/-!
# `Config.Load` — `load_config`

`load_config` takes a block from `malloc` and writes into it what it finds in the file. The block is memory: its
fields lie at the offsets of `struct Config` (532 bytes), a `strcpy` that is too long for its field runs over those
behind it, and one that is too long for the block is undefined, like the faults of the tokenizer (`none`).

`Settings` are the texts that the file gives for the three variables, which is all that `load_config` takes from it
(`loadConfig_eq`).
-/

namespace IOSwitch

open Lib Tokenizer

namespace Config

/-! ## `struct Config` in memory -/

/-- `sizeof(Config)`. -/
def size : Nat := 532

def destIpAt : Nat := 0
def destPortAt : Nat := 16
def deviceNameAt (i : Nat) : Nat := 18 + 64 * i
def numDevicesAt : Nat := 530

/-- The `Config` that lies in a block, with the names in use. -/
def ofBlock (b : Block size) : Config where
  destIp      := b.str destIpAt
  destPort    := b.u16 destPortAt
  deviceNames := (List.range (b.u16 numDevicesAt).toNat).map fun i => b.str (deviceNameAt i)
  numDevices  := b.u16 numDevicesAt

/-! ## `atoi` -/

/-- `isspace`. -/
def isSpace (b : UInt8) : Bool := b = 32 ∨ 9 ≤ b ∧ b ≤ 13

/-- `isdigit`. -/
def isDigit (b : UInt8) : Bool := 48 ≤ b ∧ b ≤ 57

/-- The number that the digits at the beginning of a string stand for. -/
def number (s : Bytes) : Nat := (s.takeWhile isDigit).foldl (fun n d => 10 * n + (d.toNat - 48)) 0

/-- `LONG_MIN` and `LONG_MAX`. -/
def longMin : Int := -9223372036854775808
def longMax : Int := 9223372036854775807

/-- A number out of range gives the end of the range. -/
def clampLong (n : Int) : Int := if n < longMin then longMin else if longMax < n then longMax else n

/-- `strtol(s, NULL, 10)`. -/
def strtol (s : Bytes) : Int :=
  match s.dropWhile isSpace with
  | 45 :: s => clampLong (-(number s : Int))
  | 43 :: s => clampLong (number s)
  | s       => clampLong (number s)

/-- `atoi(s)`, which is `(int)strtol(s, NULL, 10)`. -/
def atoi (s : Bytes) : BitVec 32 := BitVec.ofInt 32 (strtol s)

/-! ## `load_config` -/

/-- `dest_ip`. -/
def destIpVar : Bytes := [100, 101, 115, 116, 95, 105, 112]

/-- `dest_port`. -/
def destPortVar : Bytes := [100, 101, 115, 116, 95, 112, 111, 114, 116]

/-- `devices`. -/
def devicesVar : Bytes := [100, 101, 118, 105, 99, 101, 115]

/-- The string in `val`; `none` is undefined. -/
def textOf (t : Token) : Option Bytes := (text t).toOption

/-- `get_variable`. The inner `none` is `NULL`. -/
def lookup (t : Tokenizer) (var : Bytes) : Option (Option (List Token)) := (getVariable t var).toOption

/-- `strcpy(config + o, t.val)`. -/
def copyText (config : Block size) (o : Nat) (t : Token) : Option (Block size) := do
  let val ← textOf t
  config.store o (val ++ [0])

/-- The loop over the values of `devices`, from `i` on. -/
def copyNames (config : Block size) (i : Nat) : List Token → Option (Block size)
  | []        => some config
  | t :: vals => do
      let config ← copyText config (deviceNameAt i) t
      copyNames config (i + 1) vals

def loadDestIp (t : Tokenizer) (config : Block size) : Option (Block size) := do
  match ← lookup t destIpVar with
  | none      => return config
  | some vals =>
      let val ← vals.head?
      copyText config destIpAt val

def loadDestPort (t : Tokenizer) (config : Block size) : Option (Block size) := do
  match ← lookup t destPortVar with
  | none      => return config
  | some vals =>
      let val ← vals.head?
      let tempPort := atoi (← textOf val)
      if tempPort ≠ 0 then config.store destPortAt (toLe 2 tempPort.toNat) else return config

def loadDevices (t : Tokenizer) (config : Block size) : Option (Block size) := do
  match ← lookup t devicesVar with
  | none      => return config
  | some vals =>
      let config ← copyNames config 0 vals
      config.store numDevicesAt (toLe 2 vals.length)

/-- `load_config`, where `malloc` returns the block `config`. The stack holds `line` where `load_tokens` has its
    buffer. -/
def loadConfig (line : Bytes) (file : Option Bytes) (config : Block size) : Option (Block size) := do
  let t ← (loadTokens line file).toOption
  let config ← loadDestIp t config
  let config ← loadDestPort t config
  loadDevices t config

/-- `load_config`, once the tokens are loaded. -/
def loadFrom (t : Tokenizer) (config : Block size) : Option (Block size) := do
  let config ← loadDestIp t config
  let config ← loadDestPort t config
  loadDevices t config

/-! ## What the file gives -/

/-- The texts that the file gives for the three variables. -/
structure Settings where
  destIp   : Option Bytes
  destPort : Option Bytes
  devices  : Option (List Bytes)
  deriving DecidableEq

/-- The first value of a variable. -/
def firstText (t : Tokenizer) (var : Bytes) : Option (Option Bytes) := do
  match ← lookup t var with
  | none      => return none
  | some vals =>
      let val ← vals.head?
      let w ← textOf val
      return some w

/-- All values of a variable. -/
def allTexts (t : Tokenizer) (var : Bytes) : Option (Option (List Bytes)) := do
  match ← lookup t var with
  | none      => return none
  | some vals =>
      let ws ← vals.mapM textOf
      return some ws

/-- The settings in a file; `none` if reading them is undefined. -/
def settings (line : Bytes) (file : Option Bytes) : Option Settings := do
  let t ← (loadTokens line file).toOption
  let ip ← firstText t destIpVar
  let port ← firstText t destPortVar
  let devices ← allTexts t devicesVar
  return ⟨ip, port, devices⟩

/-- The settings in a list of tokens. -/
def settingsOf (t : Tokenizer) : Option Settings := do
  let ip ← firstText t destIpVar
  let port ← firstText t destPortVar
  let devices ← allTexts t devicesVar
  return ⟨ip, port, devices⟩

namespace Settings

def storeDestIp (s : Settings) (config : Block size) : Option (Block size) :=
  match s.destIp with
  | none    => some config
  | some ip => config.store destIpAt (ip ++ [0])

def storeDestPort (s : Settings) (config : Block size) : Option (Block size) :=
  match s.destPort with
  | none   => some config
  | some w => if atoi w ≠ 0 then config.store destPortAt (toLe 2 (atoi w).toNat) else some config

/-- The names from `i` on. -/
def storeNames (config : Block size) (i : Nat) : List Bytes → Option (Block size)
  | []          => some config
  | w :: names => do
      let config ← config.store (deviceNameAt i) (w ++ [0])
      storeNames config (i + 1) names

def storeDevices (s : Settings) (config : Block size) : Option (Block size) :=
  match s.devices with
  | none       => some config
  | some names => do
      let config ← storeNames config 0 names
      config.store numDevicesAt (toLe 2 names.length)

/-- The settings are written into a block. -/
def store (s : Settings) (config : Block size) : Option (Block size) := do
  let config ← s.storeDestIp config
  let config ← s.storeDestPort config
  s.storeDevices config

end Settings

/-- Texts that cannot be read make the copies undefined as well. -/
theorem copyNames_eq (config : Block size) (i : Nat) (vals : List Token) :
    copyNames config i vals = (vals.mapM textOf).bind (Settings.storeNames config i) := by
  induction vals generalizing config i with
  | nil => rfl
  | cons t vals ih =>
      rw [copyNames, copyText, List.mapM_cons]
      cases textOf t with
      | none => rfl
      | some w =>
          cases hstore : config.store (deviceNameAt i) (w ++ [0]) with
          | none =>
              cases hrest : vals.mapM textOf with
              | none => simp [hstore]
              | some ws => simp [hstore, Settings.storeNames]
          | some config' =>
              cases hrest : vals.mapM textOf with
              | none => simp [hstore, ih, hrest]
              | some ws => simp [hstore, ih, hrest, Settings.storeNames]

/-- A stage that uses the text of the head of what is returned. -/
theorem lookup_firstText {α : Type} (t : Tokenizer) (var : Bytes) (a : α) (use : Bytes → Option α) :
    ((lookup t var).bind fun found =>
      match found with
      | none      => some a
      | some vals => vals.head?.bind fun val => (textOf val).bind use) =
      (firstText t var).bind fun w =>
        match w with
        | none   => some a
        | some w => use w := by
  unfold firstText
  cases lookup t var with
  | none => rfl
  | some found =>
      cases found with
      | none => rfl
      | some vals =>
          cases hv : vals.head? with
          | none => simp [hv]
          | some v => cases hw : textOf v <;> simp [hv, hw]

section Stages

variable (t : Tokenizer) (ip port : Option Bytes) (devices : Option (List Bytes)) (config : Block size)

theorem loadDestIp_eq :
    loadDestIp t config = (firstText t destIpVar).bind fun ip => Settings.storeDestIp ⟨ip, port, devices⟩ config := by
  refine (lookup_firstText t destIpVar config fun ip => config.store destIpAt (ip ++ [0])).trans ?_
  refine congrArg _ (funext fun ip => ?_)
  cases ip <;> rfl

theorem loadDestPort_eq :
    loadDestPort t config =
      (firstText t destPortVar).bind fun port => Settings.storeDestPort ⟨ip, port, devices⟩ config := by
  refine (lookup_firstText t destPortVar config fun w =>
    if atoi w ≠ 0 then config.store destPortAt (toLe 2 (atoi w).toNat) else some config).trans ?_
  refine congrArg _ (funext fun port => ?_)
  cases port <;> rfl

theorem loadDevices_eq :
    loadDevices t config =
      (allTexts t devicesVar).bind fun devices => Settings.storeDevices ⟨ip, port, devices⟩ config := by
  unfold loadDevices allTexts
  cases lookup t devicesVar with
  | none => rfl
  | some found =>
      cases found with
      | none => rfl
      | some vals =>
          cases hws : vals.mapM textOf with
          | none => simp [copyNames_eq, hws]
          | some ws =>
              have hlen : ws.length = vals.length := by simpa using (congrArg List.length (map_of_mapM hws)).symm
              simp [copyNames_eq, hws, hlen, Settings.storeDevices]

end Stages

/-- Tokens are read for their settings, and for nothing else. -/
theorem loadFrom_eq (t : Tokenizer) (config : Block size) :
    loadFrom t config = (settingsOf t).bind (Settings.store · config) := by
  unfold loadFrom settingsOf
  -- texts that are read later and cannot be read make the run undefined all the same
  cases hip : firstText t destIpVar with
  | none => simp [loadDestIp_eq t none none, hip]
  | some ip =>
      cases hport : firstText t destPortVar with
      | none => simp [loadDestPort_eq t none none, hport]
      | some port =>
          cases hdev : allTexts t devicesVar with
          | none => simp [loadDevices_eq t none none, hdev]
          | some devices =>
              simp [loadDestIp_eq t port devices, loadDestPort_eq t ip devices, loadDevices_eq t ip port, hip, hport,
                hdev, Settings.store]

/-- **`load_config`** writes the settings of the file into the block, and takes nothing else from it. -/
theorem loadConfig_eq (line : Bytes) (file : Option Bytes) (config : Block size) :
    loadConfig line file config = (settings line file).bind (Settings.store · config) := by
  have hsettings : settings line file = (loadTokens line file).toOption.bind settingsOf := rfl
  rw [hsettings, Option.bind_assoc]
  show ((loadTokens line file).toOption.bind fun t => loadFrom t config) = _
  refine congrArg _ (funext fun t => ?_)
  exact loadFrom_eq t config

end Config

end IOSwitch
