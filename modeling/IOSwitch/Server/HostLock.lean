import IOSwitch.Lib.Prog
import IOSwitch.Lib.Bytes

/-!
# `Server.HostLock` — `lock`, `try_unlock` and `spawn_lock_thread`

The thread that a sender creates once it is connected: it grabs keyboard and pointer, so that the host no
longer reacts to input, and gives them back when the keys of its bind have been pressed in order.
-/

namespace IOSwitch

open Lib

/-- What `XNextEvent` delivers; only key presses carry data that `try_unlock` reads. -/
inductive XEvent where
  | keyPress (time : Nat) (ks : Nat)
  | other

/-- `KeyBind`. -/
structure KeyBind where
  keys : List Nat
  len  : Nat
  idx  : Nat
  deriving DecidableEq

/-- The bind of `spawn_lock_thread`: `XK_Super_L`, `XK_Control_L`, `XK_period`. -/
def unlockBind : KeyBind := ⟨[0xffeb, 0xffe3, 0x002e], 3, 0⟩

/-- The calls of a lock thread to the X server; `exit` ends the whole process. -/
inductive LockCall where
  | openDisplay
  | grabKeyboard
  | select
  | grabPointer
  | ungrabKeyboard
  | closeDisplay
  | nextEvent
  | bell
  | exit
  deriving DecidableEq

abbrev LockCall.Resp : LockCall → Type
  | openDisplay    => Bool
  | grabKeyboard   => Bool
  | select         => Unit
  | grabPointer    => Bool
  | ungrabKeyboard => Unit
  | closeDisplay   => Unit
  | nextEvent      => XEvent
  | bell           => Unit
  | exit           => Unit

abbrev lockI : Interface := ⟨LockCall, LockCall.Resp⟩

instance : DecidableEq lockI.Call := inferInstanceAs (DecidableEq LockCall)

/-- `locked` is the head of `while (disp_lock->locked)`, reached once `lock` has returned. -/
inductive LockLoc where
  | entry
  | locked (bind : KeyBind)
  | unlocked
  deriving DecidableEq

namespace HostLock

/-- A call, as a program. -/
abbrev ask (c : LockCall) : Prog lockI c.Resp := Prog.perform (I := lockI) c

/-- The attempts of `lock` to grab the keyboard, `n` of them. -/
def grabKeyboard : Nat → Prog lockI Bool
  | 0     => return false
  | n + 1 => do
      if ← ask .grabKeyboard then return true
      ask .select
      grabKeyboard n

/-- `if (!ok) exit(1);`. What follows an `exit` is never executed: the process is gone. -/
def exitUnless (ok : Bool) : Prog lockI Unit := if ok then return () else ask .exit

/-- `lock`. Window, cursor and colours are left out: nothing depends on them. -/
def lock : Prog lockI Unit := do
  exitUnless (← ask .openDisplay)
  exitUnless (← grabKeyboard 100)
  if ← ask .grabPointer then return ()
  else
    ask .ungrabKeyboard
    ask .exit

/-- The keypress of `try_unlock`: the bind moves on if the key is the next one, and back to its start if it
    is not. -/
def press (bind : KeyBind) (ks : Nat) : KeyBind :=
  if bind.keys.getD bind.idx 0 = ks then { bind with idx := bind.idx + 1 } else { bind with idx := 0 }

/-- The end of `try_unlock`: an unlocked display is ungrabbed and closed. -/
def release (bind : KeyBind) (locked : Bool) : Prog lockI (KeyBind × Bool) :=
  if locked then return (bind, true)
  else do
    ask .ungrabKeyboard
    ask .closeDisplay
    return (bind, false)

/-- `try_unlock`: the new bind, and whether the display is still locked. -/
def tryUnlock (bind : KeyBind) : Prog lockI (KeyBind × Bool) := do
  let timeout : Nat := 0
  let ev ← ask .nextEvent
  -- the counter is a fresh local: it is 1 here, never 100
  let counter : Nat := 0 + 1
  let locked : Bool := counter ≠ 100
  match ev with
  | .keyPress time ks =>
      if time < timeout then
        ask .bell
        release bind locked
      else
        let bind := press bind ks
        release bind (if bind.idx = bind.len then false else locked)
  | .other => release bind locked

end HostLock

open HostLock in
/-- `spawn_lock_thread`, block by block. -/
def spawnLockThread : LockLoc → Prog lockI LockLoc
  | .entry => do
      lock
      return .locked unlockBind
  | .locked bind => do
      let (bind, locked) ← tryUnlock bind
      return if locked then .locked bind else .unlocked
  | .unlocked => return .unlocked

end IOSwitch
