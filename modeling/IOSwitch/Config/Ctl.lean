import IOSwitch.Config.Load

/-!
# `Config.Ctl` — `parse_config` of `ioswitchctl.c`

The control program has a structure of its own for what it takes from the file. Unlike `load_config` it writes into a
structure with defaults, on the stack of `main`. `daemon_ip` is its last field, so that a copy that does not fit runs
past the structure.
-/

namespace IOSwitch

open Lib Tokenizer Config

namespace CtlConfig

/-! ## `struct CtlConfig` in memory -/

/-- `sizeof(CtlConfig)`; `command` comes first, and `parse_config` leaves it alone. -/
def size : Nat := 24

def sourcePortAt : Nat := 4
def daemonPortAt : Nat := 6
def daemonIpAt : Nat := 8

/-! ## `parse_config` -/

/-- `daemon_ip`. -/
def daemonIpVar : Bytes := [100, 97, 101, 109, 111, 110, 95, 105, 112]

/-- `daemon_port`. -/
def daemonPortVar : Bytes := [100, 97, 101, 109, 111, 110, 95, 112, 111, 114, 116]

/-- `source_port`. -/
def sourcePortVar : Bytes := [115, 111, 117, 114, 99, 101, 95, 112, 111, 114, 116]

def parseDaemonIp (t : Tokenizer) (config : Block size) : Option (Block size) := do
  match ← lookup t daemonIpVar with
  | none      => return config
  | some vals =>
      let val ← vals.head?
      let ip ← textOf val
      config.store daemonIpAt (ip ++ [0])

/-- A port, which lies at offset `o`. -/
def parsePort (t : Tokenizer) (var : Bytes) (o : Nat) (config : Block size) : Option (Block size) := do
  match ← lookup t var with
  | none      => return config
  | some vals =>
      let val ← vals.head?
      let tempPort := atoi (← textOf val)
      if tempPort ≠ 0 then config.store o (toLe 2 tempPort.toNat) else return config

def parseDaemonPort (t : Tokenizer) (config : Block size) : Option (Block size) :=
  parsePort t daemonPortVar daemonPortAt config

def parseSourcePort (t : Tokenizer) (config : Block size) : Option (Block size) :=
  parsePort t sourcePortVar sourcePortAt config

/-- `parse_config`, once the tokens are loaded. -/
def parseTokens (t : Tokenizer) (config : Block size) : Option (Block size) := do
  let config ← parseDaemonIp t config
  let config ← parseDaemonPort t config
  parseSourcePort t config

/-- `parse_config`. -/
def parseConfig (line : Bytes) (file : Option Bytes) (config : Block size) : Option (Block size) := do
  let t ← (loadTokens line file).toOption
  parseTokens t config

/-- The address, if there is one. -/
def storeDaemonIp (config : Block size) : Option Bytes → Option (Block size)
  | none    => some config
  | some ip => config.store daemonIpAt (ip ++ [0])

section Stages

variable (t : Tokenizer) (config : Block size)

theorem parseDaemonIp_eq : parseDaemonIp t config = (firstText t daemonIpVar).bind (storeDaemonIp config) := by
  refine (lookup_firstText t daemonIpVar config fun ip => config.store daemonIpAt (ip ++ [0])).trans ?_
  refine congrArg _ (funext fun ip => ?_)
  cases ip <;> rfl

end Stages

end CtlConfig

end IOSwitch
