import IOSwitch.Config.Ctl
import IOSwitch.Lib.Getopt
import IOSwitch.Lib.Prog

/-!
# `Ctl.Main` — `ioswitchctl.c`

The control program reads its options, then its config file, and then sends one command to a daemon. Both write into
the `CtlConfig` on the stack of `main` (`Config.Ctl`), which starts with the built-in settings.

What the program finds around it is an `Env`; the connection to the daemon is a program over calls, like the threads of
the daemon. Copies that do not fit and the fault of `strcpy` without `HOME` are undefined (`none`). What is printed is
left out. `-p` and `-l` are accepted and have no effect.
-/

namespace IOSwitch

open Lib Tokenizer Config

namespace CtlConfig

/-- The bytes of `config.command` come first. -/
def command (config : Block size) : CommandType := .ofCode (ofLe (config.bytes.take 4))

def daemonPort (config : Block size) : UInt16 := config.u16 daemonPortAt

def daemonIp (config : Block size) : Bytes := config.str daemonIpAt

/-- `127.0.0.1`. -/
def localhost : Bytes := [49, 50, 55, 46, 48, 46, 48, 46, 49]

/-- The initialiser of `config` in `main`. -/
def initial : Block size where
  bytes := toLe 4 CommandType.none.code ++ toLe 2 8080 ++ toLe 2 8080 ++ (localhost ++ List.replicate 7 0)
  size  := by decide

end CtlConfig

namespace Ctl

open CtlConfig Getopt

/-! ## `str_to_command` -/

/-- `tolower`, in the C locale. -/
def tolower (b : UInt8) : UInt8 := if 65 ≤ b ∧ b ≤ 90 then b + 32 else b

/-- `strncasecmp(s, t, n)`. -/
def strncasecmp : Nat → Bytes → Bytes → Int
  | 0, _, _     => 0
  | n + 1, s, t =>
      let a := tolower (s.headD 0)
      let b := tolower (t.headD 0)
      if a ≠ b then a.toNat - b.toNat
      else if a = 0 then 0
      else strncasecmp n s.tail t.tail

/-- `NONE`, and so on. -/
def noneName : Bytes := [78, 79, 78, 69]
def listName : Bytes := [76, 73, 83, 84]
def startName : Bytes := [83, 84, 65, 82, 84]
def stopName : Bytes := [83, 84, 79, 80]
def switchName : Bytes := [83, 87, 73, 84, 67, 72]
def reloadName : Bytes := [82, 69, 76, 79, 65, 68]
def killName : Bytes := [75, 73, 76, 76]

/-- `str_to_command`. Of `SWITCH` only five letters are compared. -/
def strToCommand (string : Bytes) : CommandType :=
  if strncasecmp 4 noneName string = 0 then .none
  else if strncasecmp 4 listName string = 0 then .list
  else if strncasecmp 5 startName string = 0 then .start
  else if strncasecmp 4 stopName string = 0 then .stop
  else if strncasecmp 5 switchName string = 0 then .switch
  else if strncasecmp 6 reloadName string = 0 then .reload
  else if strncasecmp 4 killName string = 0 then .kill
  else .none

/-! ## `send_command` -/

/-- The calls of `send_command`. -/
inductive CtlCall where
  | socket
  | inetPton (ip : Bytes)
  | connect (fd : Int) (ip : Bytes) (port : UInt16)
  | sendConn (fd : Int) (conn : NewConnection)
  | sendArgs (fd : Int) (args : CommandArgs)
  | close (fd : Int)

abbrev CtlCall.Resp : CtlCall → Type
  | close _ => Unit
  | _       => Int

abbrev ctlI : Interface := ⟨CtlCall, CtlCall.Resp⟩

/-- A call, as a program. -/
abbrev ask (c : CtlCall) : Prog ctlI c.Resp := Prog.perform (I := ctlI) c

/-- `send_command`. -/
def sendCommand (config : Block CtlConfig.size) : Prog ctlI Int := do
  let fd ← ask .socket
  if fd < 0 then return -1
  if (← ask (.inetPton (daemonIp config))) ≤ 0 then return -1
  if (← ask (.connect fd (daemonIp config) (daemonPort config))) < 0 then return -1
  if (← ask (.sendConn fd ⟨.command, 0, NewConnection.noNames⟩)) ≤ 0 then return -1
  if (← ask (.sendArgs fd ⟨command config, 0, List.replicate 256 0⟩)) ≤ 0 then return -1
  ask (.close fd)
  return 0

/-! ## `main` -/

/-- `HOME`, the working directory (`none` if `getcwd` fails), the files, and what lies on the stack where `load_tokens`
    has its buffer. -/
structure Env where
  home  : Option Bytes
  cwd   : Option Bytes
  files : Bytes → Option Bytes
  line  : Bytes

/-- The locals of `main`. -/
structure Locals where
  config        : Block CtlConfig.size
  configPath    : Bytes
  doParseConfig : Bool

/-- `/.config/ioswitch/config`. -/
def configFile : Bytes :=
  [47, 46, 99, 111, 110, 102, 105, 103, 47, 105, 111, 115, 119, 105, 116, 99, 104, 47, 99, 111, 110, 102, 105, 103]

/-- `/`. -/
def slash : UInt8 := 47

/-- `char config_path[256]`. -/
def fitPath (path : Bytes) : Option Bytes := if path.length < 256 then some path else none

/-- The path that `config_path` starts with. -/
def homePath (env : Env) : Option Bytes := do
  let home ← env.home
  fitPath (home ++ configFile)

/-- The path of `-c`. -/
def givenPath (env : Env) (optarg : Bytes) : Option Bytes := do
  let cwd ← env.cwd
  fitPath (cwd ++ slash :: optarg)

/-- `:t:i:d:p:l:c:n:`. -/
def optstring : Bytes := [58, 116, 58, 105, 58, 100, 58, 112, 58, 108, 58, 99, 58, 110, 58]

/-- The letters of the options that have a case in `main`. -/
def letterC : UInt8 := 99
def letterD : UInt8 := 100
def letterI : UInt8 := 105
def letterN : UInt8 := 110
def letterT : UInt8 := 116

/-- The switch over an option with its argument. -/
def setOption (env : Env) (s : Locals) (opt : UInt8) (optarg : Bytes) : Option Locals :=
  if opt = letterD then do
    let config ← s.config.store daemonPortAt (toLe 2 (atoi optarg).toNat)
    return { s with config }
  else if opt = letterT then do
    let config ← s.config.store 0 (toLe 4 (strToCommand optarg).code)
    return { s with config }
  else if opt = letterI then do
    let config ← s.config.store daemonIpAt (optarg ++ [0])
    return { s with config }
  else if opt = letterN then return { s with doParseConfig := false }
  else if opt = letterC then do
    let configPath ← givenPath env optarg
    return { s with configPath }
  else return s

/-- The loop over the options. On the left is the value that `main` returns from it. -/
def parseOptions (env : Env) (s : Locals) : List Opt → Option (Int ⊕ Locals)
  | []                     => some (.inr s)
  | .unknown _ :: _        => some (.inl 1)
  | .arg opt optarg :: os  => do
      let s ← setOption env s opt optarg
      parseOptions env s os
  -- `:` has no case, and no option is without an argument
  | .missing _ :: os       => parseOptions env s os
  | .flag _ :: os          => parseOptions env s os

/-- The file, unless `-n` was given. -/
def settle (env : Env) (s : Locals) : Option (Block CtlConfig.size) :=
  if s.doParseConfig then parseConfig env.line (env.files s.configPath) s.config else some s.config

/-- `main`, for the arguments behind the name of the program. -/
def main (env : Env) (argv : List Bytes) : Option (Prog ctlI Int) := do
  let configPath ← homePath env
  match ← parseOptions env ⟨CtlConfig.initial, configPath, true⟩ (getopt optstring none argv) with
  | .inl code => return .ret code
  | .inr s    =>
      let config ← settle env s
      return do
        let _ ← sendCommand config
        return 0

end Ctl

end IOSwitch
