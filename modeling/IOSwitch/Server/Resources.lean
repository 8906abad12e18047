import IOSwitch.Lib.Silent
import IOSwitch.Server.Calls

/-!
# `Server.Resources` — what a sender has to give back

A sender gets its arguments from `start` as a block of the heap, opens a socket and the devices of the config, and
allocates the array for `poll`. `spawnSenderThreadHeap` is `spawn_sender_thread` once more, with the statements that
allocate and release; without them it is `spawnSenderThread` (`spawnSenderThreadHeap_erase`).

`hold_verified` follows what the thread holds from block to block: on no way does it end with nothing.
-/

namespace IOSwitch

open Lib

/-- What is got and has to be given back: descriptors, by the kind of file, and blocks of the heap. -/
inductive Resource where
  | listening
  | socket (fd : Int)
  | device (fd : Int)
  | uinput (fd : Int)
  | display
  | senderArgs
  | deviceFds
  deriving DecidableEq

/-- A statement on a resource. -/
inductive Stmt where
  | malloc (r : Resource)
  | free (r : Resource)
  | close (r : Resource)
  deriving DecidableEq

/-- The calls of a sender thread and its statements. -/
abbrev heapI : Interface := senderI.plus Stmt

namespace Sender

/-- A call of a program with statements. -/
abbrev call (c : SenderCall) : Prog heapI c.Resp := Prog.perform (I := heapI) (.inl c)

/-- A statement, as a program. -/
abbrev exec (s : Stmt) : Prog heapI Unit := Prog.perform (I := heapI) (.inr s)

/-- `setup` behind the socket, with the statement that allocates. -/
def connectHeap (fd : Int) : Prog heapI SenderLoc := do
  call .lock
  let config ← call .config
  if (← (connectToServer fd (cstr config.destIp) config.destPort).lift) < 0 then
    call .unlock
    return .exited
  call .unlock
  let config ← call .config
  let conn := ⟨.inputStream, BitVec.ofNat 32 config.numDevices.toNat, NewConnection.noNames⟩
  call .lock
  exec (.malloc .deviceFds)
  let config ← call .config
  match ← (openDevices config config.numDevices.toNat 0 conn []).lift with
  | none =>
      call .unlock
      return .exited
  | some (conn, fds) =>
      call .unlock
      if (← call (.sendConn fd conn)) < 0 then return .exited
      call .createLock
      return .loop ⟨fd, fds⟩

/-- `setup`. -/
def setupHeap : Prog heapI SenderLoc := do
  let fd ← call .socket
  if fd < 0 then return .exited
  connectHeap fd

end Sender

open Sender

/-- `spawn_sender_thread`, with its statements. -/
def spawnSenderThreadHeap : SenderLoc → Prog heapI SenderLoc
  | .entry => setupHeap
  | .leave _ => do
      call .joinLock
      exec (.free .senderArgs)
      exec (.free .deviceFds)
      return .exited
  | l => (spawnSenderThread l).lift

/-! ## The code without the statements -/

theorem setupHeap_erase : setupHeap.erase = setup := by
  refine congrArg (@Prog.call senderI SenderLoc .socket) (funext fun fd => ?_)
  show Prog.erase (if fd < 0 then _ else connectHeap fd) = if fd < 0 then _ else _
  split
  · rfl
  refine congrArg (@Prog.call senderI SenderLoc .lock) (funext fun _ => ?_)
  refine congrArg (@Prog.call senderI SenderLoc .config) (funext fun config => ?_)
  show Prog.erase ((connectToServer _ _ _).lift >>= _) = connectToServer _ _ _ >>= _
  rw [Prog.erase_bind, Prog.erase_lift]
  refine congrArg (connectToServer fd (cstr config.destIp) config.destPort >>= ·) (funext fun r => ?_)
  show Prog.erase (if r < 0 then _ else _) = if r < 0 then _ else _
  split
  · rfl
  refine congrArg (@Prog.call senderI SenderLoc .unlock) (funext fun _ => ?_)
  refine congrArg (@Prog.call senderI SenderLoc .config) (funext fun config => ?_)
  refine congrArg (@Prog.call senderI SenderLoc .lock) (funext fun _ => ?_)
  -- the array for `poll` is allocated here
  refine congrArg (@Prog.call senderI SenderLoc .config) (funext fun config' => ?_)
  show Prog.erase ((openDevices _ _ _ _ _).lift >>= _) = openDevices _ _ _ _ _ >>= _
  rw [Prog.erase_bind, Prog.erase_lift]
  refine congrArg (openDevices config' _ 0 _ [] >>= ·) (funext fun opened => ?_)
  cases opened with
  | none => rfl
  | some connFds =>
      refine congrArg (@Prog.call senderI SenderLoc .unlock) (funext fun _ => ?_)
      refine congrArg (@Prog.call senderI SenderLoc (.sendConn fd connFds.1)) (funext fun sent => ?_)
      show Prog.erase (if sent < 0 then _ else _) = if sent < 0 then _ else _
      split <;> rfl

/-- **Without its statements** the code is `spawnSenderThread`. -/
theorem spawnSenderThreadHeap_erase (l : SenderLoc) : (spawnSenderThreadHeap l).erase = spawnSenderThread l := by
  cases l with
  | entry => exact setupHeap_erase
  | leave env => rfl
  | loop env => exact Prog.erase_lift _
  | round env k => exact Prog.erase_lift _
  | check env connected => exact Prog.erase_lift _
  | exited => rfl

/-! ## What a sender holds -/

/-- What is held after a call that opens `r` has answered `fd`. -/
def gain (held : List Resource) (fd : Int) (r : Resource) : List Resource := if fd < 0 then held else held ++ [r]

theorem mem_gain {held : List Resource} {fd : Int} {r r' : Resource} (h : r ∈ held) : r ∈ gain held fd r' := by
  unfold gain
  split
  · exact h
  · exact List.mem_append_left _ h

theorem mem_gain_self {held : List Resource} {fd : Int} {r : Resource} (h : ¬ fd < 0) : r ∈ gain held fd r := by
  unfold gain
  rw [if_neg h]
  exact List.mem_append_right _ List.mem_cons_self

/-- What a sender holds after a call or a statement. -/
def heldAfter (held : List Resource) : (c : heapI.Call) → heapI.Resp c → List Resource
  | .inl .socket, fd         => gain held fd (.socket fd)
  | .inl (.openDevice _), fd => gain held fd (.device fd)
  | .inl _, _                => held
  | .inr (.malloc r), _      => held ++ [r]
  | .inr (.free r), _        => held.erase r
  | .inr (.close r), _       => held.erase r

/-- The ghost state is what the thread holds. -/
def holdContract : Contract heapI (List Resource) where
  pre _ _             := True
  post held c r held' := held' = heldAfter held c r

/-- At its beginning a sender holds its arguments, from the loop on its socket, and at the end something. -/
def HoldsAt : SenderLoc → List Resource → Prop
  | .entry, held => .senderArgs ∈ held
  | .loop env, held | .round env _, held | .check env _, held | .leave env, held => .socket env.fd ∈ held
  | .exited, held => held ≠ []

/-- The calls and statements that release nothing. -/
def Retains : heapI.Call → Prop
  | .inl _           => True
  | .inr (.malloc _) => True
  | .inr _           => False

variable {held : List Resource} {r : Resource}

/-- What is held is kept by a call or statement that releases nothing. -/
theorem mem_heldAfter {c : heapI.Call} {a : heapI.Resp c} (hc : Retains c) (hr : r ∈ held) : r ∈ heldAfter held c a := by
  cases c with
  | inl c =>
      cases c with
      | socket | openDevice _ => exact mem_gain hr
      | _ => exact hr
  | inr s =>
      cases s with
      | malloc r' => exact List.mem_append_left _ hr
      | free r' => exact hc.elim
      | close r' => exact hc.elim

/-- **A part that releases nothing** keeps what is held. -/
theorem wp_retains {α : Type} {Q : α → Prop} {p : Prog heapI α} (hp : p.Within Retains Q) (hr : r ∈ held) :
    wp holdContract p (fun held' a => r ∈ held' ∧ Q a) held := by
  refine wp_keeps hp ?_ hr
  intro held c hheld hc
  refine ⟨trivial, ?_⟩
  rintro a held' rfl
  exact mem_heldAfter hc hheld

/-- A lifted part releases nothing. -/
theorem lift_retains {α : Type} {Q : α → Prop} {p : Prog senderI α} (hp : p.Within (fun _ => True) Q) :
    (p.lift : Prog heapI α).Within Retains Q := Prog.lift_within hp fun _ _ => trivial

/-- Nor does what comes behind `socket`. -/
theorem connectHeap_retains (fd : Int) :
    (connectHeap fd).Within Retains fun l => l = .exited ∨ ∃ fds, l = .loop ⟨fd, fds⟩ := by
  refine ⟨trivial, fun _ => ⟨trivial, fun config => ?_⟩⟩
  show Prog.Within _ _ ((connectToServer _ _ _).lift >>= _)
  apply Prog.within_bind (lift_retains (Prog.within_true _))
  intro r _
  show Prog.Within _ _ (if r < 0 then _ else _)
  split
  · exact ⟨trivial, fun _ => .inl rfl⟩
  refine ⟨trivial, fun _ => ⟨trivial, fun config => ⟨trivial, fun _ => ⟨trivial, fun _ => ⟨trivial, fun config => ?_⟩⟩⟩⟩⟩
  show Prog.Within _ _ ((openDevices _ _ _ _ _).lift >>= _)
  apply Prog.within_bind (lift_retains (Prog.within_true _))
  intro opened _
  cases opened with
  | none => exact ⟨trivial, fun _ => .inl rfl⟩
  | some connFds =>
      refine ⟨trivial, fun _ => ⟨trivial, fun (sent : Int) => ?_⟩⟩
      show Prog.Within _ _ (if sent < 0 then _ else _)
      split
      · exact .inl rfl
      · exact ⟨trivial, fun _ => .inr ⟨connFds.2, rfl⟩⟩

/-- Where a block of the loop goes on, the locals are the same. -/
def SenderLoc.keepsEnv (env : SenderEnv) : SenderLoc → Prop
  | loop e | round e _ | check e _ | leave e => e = env
  | entry | exited                           => False

theorem blocks_env {l : SenderLoc} {env : SenderEnv}
    (hl : l = .loop env ∨ (∃ k, l = .round env k) ∨ ∃ connected, l = .check env connected) :
    (spawnSenderThread l).Within (fun _ => True) (SenderLoc.keepsEnv env) := by
  rcases hl with rfl | ⟨k, rfl⟩ | ⟨connected, rfl⟩
  · exact ⟨trivial, fun _ => ⟨trivial, fun _ => ⟨trivial, fun _ => rfl⟩⟩⟩
  · exact Prog.within_bind (Prog.within_true _) fun _ _ => rfl
  · refine ⟨trivial, fun _ => ⟨trivial, fun sending => ⟨trivial, fun _ => ?_⟩⟩⟩
    show SenderLoc.keepsEnv env (if connected && sending then _ else _)
    split <;> rfl

/-- **Every block** keeps to it: a sender never ends with nothing. -/
theorem hold_verified : Thread.Verified holdContract spawnSenderThreadHeap HoldsAt := by
  have hblock : ∀ {l : SenderLoc} {env : SenderEnv} {held : List Resource},
      (l = .loop env ∨ (∃ k, l = .round env k) ∨ ∃ connected, l = .check env connected) →
      .socket env.fd ∈ held → wp holdContract (spawnSenderThread l).lift (fun held' l' => HoldsAt l' held') held := by
    intro l env held hl hheld
    refine wp_mono (wp_retains (lift_retains (blocks_env hl)) hheld) ?_
    rintro held' l' ⟨hheld', henv⟩
    cases l' with
    | entry | exited => exact henv.elim
    | _ =>
        obtain rfl := henv
        exact hheld'
  intro l held hl
  cases l with
  | entry =>
      refine ⟨trivial, ?_⟩
      rintro (fd : Int) _ rfl
      show wp _ (if fd < 0 then _ else connectHeap fd) _ _
      split
      · have hargs : .senderArgs ∈ heldAfter held (.inl .socket) fd := mem_gain hl
        exact List.ne_nil_of_mem hargs
      · next hopened =>
        have hsocket : .socket fd ∈ heldAfter held (.inl .socket) fd := mem_gain_self hopened
        refine wp_mono (wp_retains (connectHeap_retains fd) hsocket) ?_
        rintro held' l' ⟨hheld', rfl | ⟨fds, rfl⟩⟩
        · exact List.ne_nil_of_mem hheld'
        · exact hheld'
  | loop env => exact hblock (.inl rfl) hl
  | round env k => exact hblock (.inr (.inl ⟨k, rfl⟩)) hl
  | check env connected => exact hblock (.inr (.inr ⟨connected, rfl⟩)) hl
  | leave env =>
      refine ⟨trivial, fun _ held₁ hjoin => ⟨trivial, fun _ held₂ hargs => ⟨trivial, fun _ held₃ hfds => ?_⟩⟩⟩
      have hsocket₁ : .socket env.fd ∈ held₁ := by rw [hjoin]; exact hl
      have hsocket₂ : .socket env.fd ∈ held₂ := by rw [hargs]; exact (List.mem_erase_of_ne (by simp)).mpr hsocket₁
      have hsocket₃ : .socket env.fd ∈ held₃ := by rw [hfds]; exact (List.mem_erase_of_ne (by simp)).mpr hsocket₂
      exact List.ne_nil_of_mem hsocket₃
  | exited => exact hl

end IOSwitch
