import IOSwitch.Server.Commands
import IOSwitch.Server.HostLock
import IOSwitch.Server.Sender

/-!
# `Server.Calls` — which calls the parts of the code make

The loops and helpers of the main thread and of the senders, each with the kinds of calls it can make and the
labels it can return, whatever the answers. Every contract that is neutral for these kinds then passes over
the whole part by the frame rule (`wp_neutral`). For the lock threads, the rules that their contracts share.
-/

namespace IOSwitch

open Lib

/-! ## The main thread -/

/-- The calls of the main thread that concern neither the sender mutex and the flag nor the config. -/
def ServerCall.Plain : ServerCall → Prop
  | lockSender | unlockSender | sending | setSending _ | freeConfig | loadConfig _ | createSender
  | printf _ => False
  | _        => True

/-- The calls of the command handlers. -/
def ServerCall.Handles (c : ServerCall) : Prop := ¬ c.Plain

/-- The calls that leave the config alone, and are calls. -/
def ServerCall.Tame : ServerCall → Prop
  | freeConfig | loadConfig _ | wild => False
  | _                                => True

/-- The calls that create a virtual device. -/
def ServerCall.MakesDevice : ServerCall → Prop
  | openUinput | devSetup _ _ | devCreate _ => True
  | _                                       => False

/-- The calls that read the table of connections. -/
def ServerCall.ReadsSlot : ServerCall → Prop
  | connection _ => True
  | _            => False

/-- The calls of the `INPUT_STREAM` case of `run_server`. -/
def ServerCall.ForInput : ServerCall → Prop
  | numConns | lockListener | unlockListener | connection _ | openUinput | devSetup _ _ | devCreate _
  | createListener _ _ | incrNumConns => True
  | _                                 => False

theorem ServerCall.MakesDevice.forInput {c : ServerCall} (h : c.MakesDevice) : c.ForInput := by
  cases c <;> trivial

theorem ServerCall.ReadsSlot.forInput {c : ServerCall} (h : c.ReadsSlot) : c.ForInput := by
  cases c <;> trivial

theorem ServerCall.ForInput.plain {c : ServerCall} (h : c.ForInput) : c.Plain := by
  cases c <;> trivial

theorem ServerCall.Handles.not_forInput {c : ServerCall} (h : c.Handles) : ¬ c.ForInput := fun hc => h hc.plain

/-- Where a round of the accept loop can go on. -/
def ServerLoc.afterRound : ServerLoc → Prop
  | entry _ _     => False
  | loop _ _      => True
  | handle _ _    => True
  | returned code => code = -1

namespace Server

theorem createDevice_makes (sockfd : Int) (name : Bytes) :
    (createDevice sockfd name).Within ServerCall.MakesDevice fun _ => True := by
  simp [createDevice, ServerCall.MakesDevice]

theorem createDevices_makes (sockfd : Int) (conn : Bytes) (n i : Nat) (devices : List VirtualDevice) :
    (createDevices sockfd conn n i devices).Within ServerCall.MakesDevice fun _ => True := by
  induction n generalizing i devices with
  | zero => trivial
  | succ n ih => exact Prog.within_bind (createDevice_makes _ _) fun _ _ => ih _ _

theorem findSlot_reads (n i openSlot : Nat) : (findSlot n i openSlot).Within ServerCall.ReadsSlot fun _ => True := by
  induction n generalizing i openSlot with
  | zero => trivial
  | succ n ih => exact ⟨trivial, fun c => ih _ _⟩

theorem findSlot_forInput (n i openSlot : Nat) :
    (findSlot n i openSlot).Within ServerCall.ForInput fun _ => True :=
  (findSlot_reads n i openSlot).mono (fun _ h => ServerCall.ReadsSlot.forInput h) fun _ h => h

/-- The search for a slot keeps the ghost state if reading a slot does. -/
theorem wp_findSlot {γ : Type} {C : Contract serverI γ} {g : γ}
    (hC : ∀ i, C.pre g (.connection i) ∧ ∀ r g', C.post g (.connection i) r g' → g' = g) (n i openSlot : Nat) :
    wp C (findSlot n i openSlot) (fun g' _ => g' = g) g := by
  refine wp_mono (wp_neutral (findSlot_reads n i openSlot) fun c hc => ?_) fun _ _ h => h.1
  cases c with
  | connection i => exact hC i
  | _ => exact hc.elim

/-- So does the loop over the devices of a connection if creating a device does. -/
theorem wp_createDevices {γ : Type} {C : Contract serverI γ} {g : γ}
    (hC : ∀ c, ServerCall.MakesDevice c → C.pre g c ∧ ∀ r g', C.post g c r g' → g' = g) (sockfd : Int) (conn : Bytes)
    (n i : Nat) (devices : List VirtualDevice) :
    wp C (createDevices sockfd conn n i devices) (fun g' _ => g' = g) g :=
  wp_mono (wp_neutral (createDevices_makes sockfd conn n i devices) hC) fun _ _ h => h.1

theorem acceptInput_forInput (fd : Int) (conn : Bytes) :
    (acceptInput fd conn).Within ServerCall.ForInput fun _ => True := by
  refine ⟨trivial, ?_⟩
  intro numConns
  show Prog.Within _ _ (if maxConnections ≤ numConns then _ else _)
  split
  · trivial
  · refine ⟨trivial, ?_⟩
    intro _
    show Prog.Within _ _ (findSlot numConns 0 0 >>= _)
    apply Prog.within_bind (findSlot_forInput _ _ _)
    intro slot _
    have hmakes := (createDevices_makes fd conn (NewConnection.numDevicesAt conn).toInt.toNat 0 []).mono
      (fun c hc => ServerCall.MakesDevice.forInput hc) fun _ h => h
    apply Prog.within_bind hmakes
    intro devices _
    simp [ServerCall.ForInput]

theorem acceptInput_plain (fd : Int) (conn : Bytes) :
    (acceptInput fd conn).Within ServerCall.Plain fun _ => True :=
  (acceptInput_forInput fd conn).mono (fun _ h => ServerCall.ForInput.plain h) fun _ h => h

theorem acceptConn_plain (fd : Int) (conn args : Bytes) :
    (acceptConn fd conn args).Within ServerCall.Plain ServerLoc.afterRound := by
  unfold acceptConn
  split
  · exact Prog.within_bind (acceptInput_plain fd conn) fun _ _ => trivial
  · refine ⟨trivial, ?_⟩
    intro r
    show Prog.Within _ _ (if r.ret < 0 then _ else _)
    split
    · exact rfl
    · trivial
  · trivial

/-- A round of the accept loop makes plain calls only. -/
theorem acceptOne_plain (conn args : Bytes) :
    (acceptOne conn args).Within ServerCall.Plain ServerLoc.afterRound := by
  refine ⟨trivial, ?_⟩
  intro fd
  show Prog.Within _ _ (if fd < 0 then _ else _)
  split
  · exact rfl
  refine ⟨trivial, ?_⟩
  intro r
  show Prog.Within _ _ (if r.ret < 0 then _ else _)
  split
  · exact rfl
  · exact acceptConn_plain fd _ args

section Handlers

variable (args : CommandArgs)

theorem start_handles : (Handler.start args).Within ServerCall.Handles fun r => r = 0 := by
  refine ⟨id, fun _ => ⟨id, fun sending => ?_⟩⟩
  cases sending with
  | true => exact ⟨id, fun _ => rfl⟩
  | false => exact ⟨id, fun _ => ⟨id, fun _ => ⟨id, fun _ => ⟨id, fun _ => rfl⟩⟩⟩⟩

theorem stop_handles : (Handler.stop args).Within ServerCall.Handles fun r => r = 0 := by
  simp [Handler.stop, ServerCall.Handles, ServerCall.Plain]

theorem switchState_handles : (Handler.switchState args).Within ServerCall.Handles fun r => r = 0 := by
  refine ⟨id, fun _ => ⟨id, fun sending => ?_⟩⟩
  cases sending with
  | true =>
      refine ⟨id, ?_⟩
      intro _
      show Prog.Within _ _ (Handler.stop args >>= _)
      exact Prog.within_bind (stop_handles args) fun _ _ => rfl
  | false =>
      refine ⟨id, ?_⟩
      intro _
      show Prog.Within _ _ (Handler.start args >>= _)
      exact Prog.within_bind (start_handles args) fun _ _ => rfl

theorem replaceConfig_handles : (Handler.replaceConfig args).Within ServerCall.Handles fun _ => True := by
  unfold Handler.replaceConfig
  split
  · simp [ServerCall.Handles, ServerCall.Plain]
  · trivial

theorem reload_handles : (Handler.reload args).Within ServerCall.Handles fun r => r = 0 := by
  refine ⟨id, ?_⟩
  intro _
  show Prog.Within _ _ (Handler.replaceConfig args >>= _)
  apply Prog.within_bind (replaceConfig_handles args)
  intro _ _
  refine ⟨id, ?_⟩
  intro _
  show Prog.Within _ _ (Handler.stop args >>= _)
  apply Prog.within_bind (stop_handles args)
  intro _ _
  exact Prog.within_bind (start_handles args) fun _ _ => rfl

theorem start_tame : (Handler.start args).Within ServerCall.Tame fun _ => True := by
  refine ⟨trivial, fun _ => ⟨trivial, fun sending => ?_⟩⟩
  cases sending with
  | true => exact ⟨trivial, fun _ => trivial⟩
  | false => exact ⟨trivial, fun _ => ⟨trivial, fun _ => ⟨trivial, fun _ => ⟨trivial, fun _ => trivial⟩⟩⟩⟩

theorem stop_tame : (Handler.stop args).Within ServerCall.Tame fun _ => True := by
  simp [Handler.stop, ServerCall.Tame]

theorem switchState_tame : (Handler.switchState args).Within ServerCall.Tame fun _ => True := by
  refine ⟨trivial, fun _ => ⟨trivial, fun sending => ?_⟩⟩
  cases sending with
  | true =>
      refine ⟨trivial, fun _ => ?_⟩
      show Prog.Within _ _ (Handler.stop args >>= _)
      exact Prog.within_bind (stop_tame args) fun _ _ => trivial
  | false =>
      refine ⟨trivial, fun _ => ?_⟩
      show Prog.Within _ _ (Handler.start args >>= _)
      exact Prog.within_bind (start_tame args) fun _ _ => trivial

/-- A handler of the command table makes no plain calls, and only that of KILL answers 1. -/
theorem commands_handles (ht : ∀ code, args.type ≠ .other code) :
    (commands args).Within ServerCall.Handles fun r => r = 1 → args.type = .kill := by
  have hzero : ∀ {r : Int}, r = 0 → r = 1 → args.type = .kill := by
    intro r h0 h1
    omega
  unfold commands
  cases hty : args.type with
  | none | list => exact fun h => absurd h (by decide)
  | start => exact (start_handles args).mono (fun _ h => h) fun _ h => hty ▸ hzero h
  | stop => exact (stop_handles args).mono (fun _ h => h) fun _ h => hty ▸ hzero h
  | switch => exact (switchState_handles args).mono (fun _ h => h) fun _ h => hty ▸ hzero h
  | reload => exact (reload_handles args).mono (fun _ h => h) fun _ h => hty ▸ hzero h
  | kill => exact Prog.within_bind (stop_handles args) fun _ _ _ => rfl
  | other code => exact absurd hty (ht code)

/-- A call through the command table keeps the ghost state if no call of a handler changes it. -/
theorem wp_commands {γ : Type} {C : Contract serverI γ} {g : γ} (hwild : C.pre g .wild)
    (hC : ∀ c, ServerCall.Handles c → C.pre g c ∧ ∀ r g', C.post g c r g' → g' = g) :
    wp C (commands args) (fun g' r => g' = g ∧ (r = 1 → args.type = .kill)) g := by
  by_cases ht : ∀ code, args.type ≠ .other code
  · exact wp_neutral (commands_handles args ht) hC
  · obtain ⟨code, hcode⟩ := not_forall_not.mp ht
    unfold commands
    rw [hcode]
    exact ⟨hwild, fun r => r.elim⟩

end Handlers

/-- **Rule for the main thread.** Let the calls made outside the `INPUT_STREAM` case keep `Inv`, and let that
    case keep it as a whole. Then it holds between the blocks of `run_server`. -/
theorem runServer_verified {γ : Type} {C : Contract serverI γ} {Inv : γ → Prop}
    (hout : ∀ (g : γ) (c : ServerCall), Inv g → ¬ c.ForInput → C.pre g c ∧ ∀ r g', C.post g c r g' → Inv g')
    (hin : ∀ fd conn g, Inv g → wp C (acceptInput fd conn) (fun g' _ => Inv g') g) :
    Thread.Verified C runServer fun _ => Inv := by
  intro l g hg
  cases l with
  | entry conn args =>
      obtain ⟨hpre, hpost⟩ := hout g .listen hg id
      refine ⟨hpre, ?_⟩
      intro r g' hr
      show wp _ (if r < 0 then _ else _) _ _
      split <;> exact hpost r g' hr
  | loop conn args =>
      obtain ⟨hpre, hpost⟩ := hout g .accept hg id
      refine ⟨hpre, ?_⟩
      intro fd g hr
      have hg := hpost fd g hr
      show wp _ (if fd < 0 then _ else _) _ _
      split
      · exact hg
      obtain ⟨hpre, hpost⟩ := hout g (.recvConn fd) hg id
      refine ⟨hpre, ?_⟩
      intro r g hr
      have hg := hpost r g hr
      show wp _ (if r.ret < 0 then _ else _) _ _
      split
      · exact hg
      show wp _ (acceptConn _ _ _) _ _
      unfold acceptConn
      split
      · exact wp_seq (hin fd _ g hg) fun _ _ h => h
      · obtain ⟨hpre, hpost⟩ := hout g (.recvArgs fd) hg id
        refine ⟨hpre, ?_⟩
        intro r g hr
        show wp _ (if r.ret < 0 then _ else _) _ _
        split <;> exact hpost r g hr
      · exact hg
  | handle conn args =>
      refine wp_seq (P := fun g _ => Inv g) ?_ fun _ _ h => h
      by_cases ht : ∀ code, (CommandArgs.ofMem args).type ≠ .other code
      · refine wp_mono (wp_keeps (commands_handles _ ht) ?_ hg) fun _ _ h => h.1
        intro g c hg hc
        exact hout g c hg (ServerCall.Handles.not_forInput hc)
      · obtain ⟨code, hcode⟩ := not_forall_not.mp ht
        unfold commands
        rw [hcode]
        exact ⟨(hout g .wild hg id).1, fun r => r.elim⟩
  | returned code => exact hg

end Server

/-! ## The senders -/

/-- The calls of `connect_to_server`. -/
def SenderCall.Connects : SenderCall → Prop
  | inetPton _ | connect _ _ _ => True
  | _                          => False

/-- The call of the loop that opens the devices. -/
def SenderCall.Opens : SenderCall → Prop
  | openDevice _ => True
  | _            => False

/-- The calls of `send_input_event`. -/
def SenderCall.Forwards : SenderCall → Prop
  | poll _ | read _ _ | send _ _ => True
  | _                            => False

/-- Where `spawn_sender_thread` can be after the part before its loop. -/
def SenderLoc.afterSetup : SenderLoc → Prop
  | loop _ | exited                            => True
  | entry | round _ _ | check _ _ | leave _ => False

namespace Sender

theorem connectToServer_connects (fd : Int) (ip : Bytes) (port : UInt16) :
    (connectToServer fd ip port).Within SenderCall.Connects fun _ => True := by
  refine ⟨trivial, ?_⟩
  intro r
  show Prog.Within _ _ (if r ≤ 0 then _ else _)
  split
  · trivial
  · refine ⟨trivial, ?_⟩
    intro r'
    show Prog.Within _ _ (if r' < 0 then _ else _)
    split <;> trivial

theorem openDevices_opens (config : Config) (n i : Nat) (conn : NewConnection) (fds : List Int) :
    (openDevices config n i conn fds).Within SenderCall.Opens fun _ => True := by
  induction n generalizing i conn fds with
  | zero => trivial
  | succ n ih =>
      refine ⟨trivial, ?_⟩
      intro fd
      show Prog.Within _ _ (if fd < 0 then _ else _)
      split
      · trivial
      · exact ih _ _ _

theorem forwardReady_forwards (devfd : List Int) (revents : List Bool) (dest : Int) (n i : Nat)
    (packet : InputPacket) :
    (forwardReady devfd revents dest n i packet).Within SenderCall.Forwards fun _ => True := by
  induction n generalizing i packet with
  | zero => trivial
  | succ n ih =>
      unfold forwardReady
      split
      · refine ⟨trivial, ?_⟩
        intro r
        show Prog.Within _ _ (if r.ret < 0 then _ else _)
        split
        · trivial
        · refine ⟨trivial, ?_⟩
          intro sent
          show Prog.Within _ _ (if sent ≤ 0 then _ else _)
          split
          · trivial
          · exact ih _ _
      · exact ih _ _

theorem sendInputEvent_forwards (k : Nat) (devfd : List Int) (dest : Int) :
    (sendInputEvent k devfd dest).Within SenderCall.Forwards fun _ => True := by
  refine ⟨trivial, ?_⟩
  intro p
  show Prog.Within _ _ (if p.ret < 0 then _ else _)
  split
  · trivial
  · exact forwardReady_forwards _ _ _ _ _ _

/-- No device is read and no packet is sent before the loop. -/
theorem setup_silent : setup.Within (fun c : SenderCall => ¬ c.Forwards) SenderLoc.afterSetup := by
  refine ⟨id, ?_⟩
  intro fd
  show Prog.Within _ _ (if fd < 0 then _ else _)
  split
  · trivial
  refine ⟨id, fun _ => ⟨id, fun config => ?_⟩⟩
  show Prog.Within _ _ (connectToServer _ _ _ >>= _)
  refine Prog.within_bind ((connectToServer_connects _ _ _).mono (fun c hc hs => ?_) fun _ h => h) fun r _ => ?_
  · cases c with
    | poll _ | read _ _ | send _ _ => exact hc
    | _ => exact hs
  show Prog.Within _ _ (if r < 0 then _ else _)
  split
  · exact ⟨id, fun _ => trivial⟩
  refine ⟨id, fun _ => ⟨id, fun config => ⟨id, fun _ => ⟨id, fun config => ?_⟩⟩⟩⟩
  show Prog.Within _ _ (openDevices _ _ _ _ _ >>= _)
  refine Prog.within_bind ((openDevices_opens _ _ _ _ _).mono (fun c hc hs => ?_) fun _ h => h) fun opened _ => ?_
  · cases c with
    | poll _ | read _ _ | send _ _ => exact hc
    | _ => exact hs
  cases opened with
  | none => exact ⟨id, fun _ => trivial⟩
  | some connFds =>
      refine ⟨id, fun _ => ⟨id, fun sent => ?_⟩⟩
      show Prog.Within _ _ (if sent < 0 then _ else _)
      split
      · trivial
      · exact ⟨id, fun _ => trivial⟩

end Sender

/-! ## The lock threads -/

namespace HostLock

variable {γ : Type} {C : Contract lockI γ} {g : γ}

/-- `exitUnless` goes on only with `ok`, if an `exit` does not return. -/
theorem wp_exitUnless {ok : Bool} (hpre : ok = false → C.pre g .exit) (hpost : ∀ r g', ¬ C.post g .exit r g') :
    wp C (exitUnless ok) (fun g' _ => g' = g ∧ ok = true) g := by
  unfold exitUnless
  cases ok with
  | true => exact ⟨rfl, rfl⟩
  | false => exact ⟨hpre rfl, fun r g' h => absurd h (hpost r g')⟩

/-- `tryUnlock` does what its `release` does, if events do not matter. -/
theorem wp_tryUnlock {Q : γ → KeyBind × Bool → Prop}
    (hnext : C.pre g .nextEvent ∧ ∀ r g', C.post g .nextEvent r g' → g' = g)
    (hrelease : ∀ bind locked, wp C (release bind locked) Q g) (bind : KeyBind) : wp C (tryUnlock bind) Q g := by
  refine ⟨hnext.1, ?_⟩
  intro ev g' hg'
  rw [hnext.2 ev g' hg']
  cases ev with
  | keyPress time ks =>
      -- no time is before the timeout of 0
      have htime : ¬ time < 0 := Nat.not_lt_zero time
      show wp C (if time < 0 then ask .bell >>= fun _ => release bind true
        else release (press bind ks) (if (press bind ks).idx = (press bind ks).len then false else true)) Q g
      rw [if_neg htime]
      exact hrelease _ _
  | other => exact hrelease _ _

end HostLock

end IOSwitch
