import IOSwitch.Lib.Prog
import IOSwitch.Lib.Lts
import IOSwitch.Lib.Silent
import IOSwitch.Lib.Bytes
import IOSwitch.Server.Types
import IOSwitch.Server.Sender
import IOSwitch.Server.Commands
import IOSwitch.Server.Listener
import IOSwitch.Server.HostLock
import IOSwitch.Lib.Feed
import IOSwitch.Server.Unlock
import IOSwitch.Server.Calls
import IOSwitch.Server.Resources
import IOSwitch.Server.Round
import IOSwitch.Daemon.State
import IOSwitch.Daemon.Step
import IOSwitch.Daemon.Script
import IOSwitch.Daemon.OneBit
import IOSwitch.Daemon.Mutex
import IOSwitch.Daemon.Active
import IOSwitch.Daemon.Truth
import IOSwitch.Daemon.Drain
import IOSwitch.Daemon.Lockout
import IOSwitch.Daemon.Slots
import IOSwitch.Daemon.Capacity
import IOSwitch.Daemon.Devices
import IOSwitch.Daemon.Ledger
import IOSwitch.Daemon.Release
import IOSwitch.Daemon.Survival
import IOSwitch.Daemon.Lifetime
import IOSwitch.Daemon.Bounds
import IOSwitch.Daemon.Arrival
import IOSwitch.Daemon.Reports
import IOSwitch.Lib.Framing
import IOSwitch.Lib.Block
import IOSwitch.Wire.Segment
import IOSwitch.Wire.Handshake
import IOSwitch.Wire.Sending
import IOSwitch.Wire.Lobby
import IOSwitch.Wire.Net
import IOSwitch.Wire.Route
import IOSwitch.Tokenizer.Load
import IOSwitch.Tokenizer.Scan
import IOSwitch.Tokenizer.Format
import IOSwitch.Tokenizer.RoundTrip
import IOSwitch.Tokenizer.Lexer
import IOSwitch.Tokenizer.Texts
import IOSwitch.Tokenizer.Append
import IOSwitch.Tokenizer.Cuts
import IOSwitch.Tokenizer.Slices
import IOSwitch.Tokenizer.Values
import IOSwitch.Tokenizer.Indent
import IOSwitch.Tokenizer.Owner
import IOSwitch.Tokenizer.Complete
import IOSwitch.Tokenizer.Reach
import IOSwitch.Tokenizer.Storage
import IOSwitch.Tokenizer.Lookup
import IOSwitch.Tokenizer.Spans
import IOSwitch.Config.Load
import IOSwitch.Config.Heap
import IOSwitch.Config.Ctl
import IOSwitch.Config.Fields
import IOSwitch.Config.First
import IOSwitch.Config.Ports
import IOSwitch.Lib.Getopt
import IOSwitch.Lib.Layers
import IOSwitch.Ctl.Main
import IOSwitch.Ctl.Precedence
import IOSwitch.Daemon.Races
import IOSwitch.Daemon.Recovery
import IOSwitch.Daemon.Wedge
import IOSwitch.Config.Printed
import IOSwitch.Ctl.Client
import IOSwitch.Daemon.Commanded
import IOSwitch.Daemon.Independent
import IOSwitch.Daemon.Reclaim
import IOSwitch.Wire.Files
import IOSwitch.Daemon.Main
import IOSwitch.Lib.Pipes
import IOSwitch.Wire.Accounts
import IOSwitch.Wire.Flush
import IOSwitch.Wire.Link
import IOSwitch.Wire.Pipes
import IOSwitch.Wire.Switch
