import IOSwitch.Ctl.Client
import IOSwitch.Daemon.Dispatch
import IOSwitch.Daemon.Races
import Mathlib.Data.List.Forall2

/-!
# `Daemon.Commanded` — a daemon that is commanded by `ioswitchctl` alone

The two programs put together. What `ioswitchctl` sends is known (`main_speaks`), what the daemon calls is what it has
received (`dispatchInv_run`), and what the handlers make of the flag is the one-bit machine (`flagInv_run`): so the flag
is where the `-t`s of the calls of `ioswitchctl` have put it (`flag_follows_calls`). None of these calls brings a config,
so the one that was loaded at the start is there for good, and the race for it does not happen (`config_stays`).
-/

namespace IOSwitch

open Lib Server

namespace Ctl

open Getopt

/-- A call of `ioswitchctl`. -/
structure Call where
  env  : Env
  argv : List Bytes

/-- The command of its last `-t`. -/
def Call.command (c : Call) : CommandType := commandGiven (getopt optstring none c.argv)

/-- The call can send `m` as the message of its command. -/
def Call.Sends (c : Call) (m : Bytes) : Prop :=
  ∃ (p : Prog ctlI Int) (fd : Int) (args : CommandArgs), main c.env c.argv = some p ∧
    p.MayReach (fun c => c = CtlCall.sendArgs fd args) (fun _ => False) ∧
    m = args.encode

theorem Call.Sends.plain {c : Call} {m : Bytes} (h : c.Sends m) : m = Daemon.plainArgs c.command := by
  obtain ⟨p, fd, args, hmain, hreach, rfl⟩ := h
  obtain ⟨_, rfl, hsays⟩ := (main_speaks hmain).of_mayReach hreach
  have hargs : args = plainCommand c.command := hsays
  rw [hargs]
  rfl

/-- It does send it when no call fails. -/
theorem sendCommand_reaches (config : Block CtlConfig.size) :
    (do let _ ← sendCommand config; return 0 : Prog ctlI Int).MayReach
      (fun c => c = CtlCall.sendArgs 0 (plainCommand (CtlConfig.command config))) (fun _ => False) := by
  have hplain : (⟨CtlConfig.command config, 0, List.replicate 256 0⟩ : CommandArgs) =
      plainCommand (CtlConfig.command config) := rfl
  rw [sendCommand, hplain]
  generalize plainCommand (CtlConfig.command config) = args
  refine Or.inr ⟨id, (0 : Int), Or.inr ⟨id, (1 : Int), Or.inr ⟨id, (0 : Int), Or.inr ⟨id, (1 : Int), Or.inl rfl⟩⟩⟩⟩

theorem Call.sends_command {c : Call} {p : Prog ctlI Int} (hmain : main c.env c.argv = some p)
    (hknown : ¬ Unknown (getopt optstring none c.argv)) : c.Sends (Daemon.plainArgs c.command) := by
  rcases main_cases hmain with ⟨hunknown, -⟩ | ⟨-, config, hcommand, rfl⟩
  · exact absurd hunknown hknown
  · exact ⟨_, _, _, hmain, sendCommand_reaches config, by rw [hcommand]; rfl⟩

/-- `-t w`, with a file that sets the port. -/
def Call.ofWord (w : Bytes) : Call := ⟨portEnv, [[dash, letterT], w]⟩

theorem Call.ofWord_sends {w : Bytes} (hw : 0 ∉ w) : (Call.ofWord w).Sends (Daemon.plainArgs (strToCommand w)) := by
  have hproper : ∀ g ∈ [(⟨letterT, w, false⟩ : Given)], Proper portEnv g := by
    intro g hg
    obtain rfl := List.mem_singleton.mp hg
    have hne : letterT ≠ letterI ∧ letterT ≠ letterC := by decide
    exact proper_iff.mpr ⟨List.mem_cons_self, nofun, hw, fun h => absurd h hne.1, fun h => absurd h hne.2⟩
  obtain ⟨config, hmain, -⟩ := main_settings (portEnv_setup hproper rfl)
  have hok : ∀ g ∈ [(⟨letterT, w, false⟩ : Given)], g.Ok optstring := fun g hg => (hproper g hg).ok
  have hreport : getopt optstring none [[dash, letterT], w] = [.arg letterT w] := getopt_words hok
  refine Call.sends_command (c := Call.ofWord w) hmain ?_
  rintro ⟨c, hc⟩
  rw [Call.ofWord, hreport, List.mem_singleton] at hc
  cases hc

end Ctl

/-- A command that can be dispatched comes back out of its message. -/
theorem ofMem_plainArgs {t : CommandType} (ht : ∀ code, t ≠ .other code) :
    CommandArgs.ofMem (Daemon.plainArgs t) = ⟨t, 0, List.replicate 256 0⟩ := by
  cases t with
  | other code => exact absurd rfl (ht code)
  | _ => decide +kernel

/-! ## Commands without a config -/

/-- A command that has a handler and brings no config. -/
structure Bare (args : CommandArgs) : Prop where
  known : ∀ code, args.type ≠ .other code
  empty : args.reloadConfig = 0

section Handlers

variable (args : CommandArgs)

theorem reload_tame (h : args.reloadConfig = 0) : (Handler.reload args).Within ServerCall.Tame fun _ => True := by
  refine ⟨trivial, fun _ => ?_⟩
  show Prog.Within _ _ (Handler.replaceConfig args >>= _)
  have hreplace : Handler.replaceConfig args = .ret () := if_neg (not_not.mpr h)
  rw [hreplace]
  refine ⟨trivial, fun _ => ?_⟩
  show Prog.Within _ _ (Handler.stop args >>= _)
  refine Prog.within_bind (stop_tame args) fun _ _ => ?_
  exact Prog.within_bind (start_tame args) fun _ _ => trivial

theorem commands_tame (h : Bare args) : (commands args).Within ServerCall.Tame fun _ => True := by
  unfold commands
  cases hty : args.type with
  | none | list => trivial
  | start => exact start_tame args
  | stop => exact stop_tame args
  | switch => exact switchState_tame args
  | reload => exact reload_tame args h.empty
  | kill => exact Prog.within_bind (stop_tame args) fun _ _ => trivial
  | other code => exact absurd hty (h.known code)

end Handlers

/-- Every command received is one that brings no config. -/
def bareContract : Contract serverI Unit where
  pre _ c := c.Tame
  post _ c r _ := match c, r with
    | .recvArgs _, r => r.ret < 0 ∨ ∃ t, (∀ code, t ≠ .other code) ∧ r.bytes = Daemon.plainArgs t
    | _, _           => True

def BareAt : ServerLoc → Unit → Prop
  | .handle _ args, _ => Bare (.ofMem args)
  | _, _              => True

theorem acceptConn_bare (fd : Int) (conn args : Bytes) :
    wp bareContract (acceptConn fd conn args) (fun g l => BareAt l g) () := by
  unfold acceptConn
  split
  · have hinput : ∀ c : ServerCall, c.ForInput →
        bareContract.pre () c ∧ ∀ r g', bareContract.post () c r g' → g' = () := by
      intro c hc
      refine ⟨?_, fun _ _ _ => rfl⟩
      cases c <;> trivial
    exact wp_seq (wp_neutral (acceptInput_forInput fd conn) hinput) fun _ _ _ => trivial
  · refine ⟨trivial, ?_⟩
    rintro r _ hr
    show wp _ (if r.ret < 0 then _ else _) _ _
    split
    · trivial
    next hret =>
    obtain ⟨t, ht, hbytes⟩ := hr.resolve_left hret
    show Bare (.ofMem (overlay args r.bytes))
    rw [hbytes, Daemon.ofMem_overlay (Daemon.plainArgs_length t), ofMem_plainArgs ht]
    exact ⟨ht, rfl⟩
  · trivial

/-- **The main thread** leaves the config alone. -/
theorem bare_verified : Thread.Verified bareContract runServer BareAt := by
  intro l _ hl
  cases l with
  | entry conn args =>
      refine ⟨trivial, ?_⟩
      rintro r _ -
      show wp _ (if r < 0 then _ else _) _ _
      split <;> trivial
  | loop conn args =>
      refine ⟨trivial, ?_⟩
      rintro fd _ -
      show wp _ (if fd < 0 then _ else _) _ _
      split
      · trivial
      refine ⟨trivial, ?_⟩
      rintro r _ -
      show wp _ (if r.ret < 0 then _ else _) _ _
      split
      · trivial
      · exact acceptConn_bare fd _ args
  | handle conn args =>
      refine wp_seq (wp_neutral (commands_tame _ hl) fun c hc => ⟨hc, fun _ _ _ => rfl⟩) ?_
      rintro _ result -
      show BareAt (if result = 1 then _ else _) _
      split <;> trivial
  | returned code => trivial

namespace Daemon

variable {cfg : Config} {conn args : Bytes} {s s' : Daemon} {e : Event} {tr : List Event}

/-! ## The flag -/

/-- **The flag follows the calls of `ioswitchctl`.** Let the messages of commands that the daemon receives be those of
    calls of `ioswitchctl`, in whatever order they were made, and let no START arrive while the daemon is sending. Then,
    when no command is being served, the flag, the number of senders created, and whether `run_server` has returned 0,
    are what the one-bit machine makes of the last `-t` of each call. -/
theorem flag_follows_calls (h : Run (Restrict StartLegal Step) (init cfg conn args) tr s) {calls : List Ctl.Call}
    (hsent : List.Forall₂ (fun m c => Ctl.Call.Sends c m) (messagesOf tr) calls) (hidle : s.main.loc.handling = false)
    (hnone : pending s = []) :
    s.sending = (OneBit.run (calls.map Ctl.Call.command)).sending ∧
      s.senders.length = (OneBit.run (calls.map Ctl.Call.command)).created ∧
      (s.main.loc = .returned 0 ↔ .kill ∈ calls.map Ctl.Call.command) := by
  have hmessages : messagesOf tr = calls.map fun c => plainArgs c.command := by
    have hplain : List.Forall₂ (fun m m' => m = m') (messagesOf tr) (calls.map fun c => plainArgs c.command) :=
      List.forall₂_map_right_iff.mpr (hsent.imp fun _ _ hs => hs.plain)
    rwa [List.forall₂_eq_eq_eq] at hplain
  have hwhole : ∀ m ∈ messagesOf tr, m.length = CommandArgs.size := by
    rw [hmessages]
    intro m hm
    obtain ⟨c, -, rfl⟩ := List.mem_map.mp hm
    exact plainArgs_length _
  have hcommands : commandsOf tr = calls.map Ctl.Call.command := by
    have hreceived := (dispatchInv_run h.of_restrict).received
    rw [hnone, List.append_nil, commandsReceived_whole hwhole, hmessages, List.map_map] at hreceived
    rw [← hreceived]
    refine List.map_congr_left fun c _ => ?_
    exact congrArg CommandArgs.type (ofMem_plainArgs (Ctl.commandGiven_known _))
  obtain ⟨-, hsend, hcr, hend⟩ := (flagInv_run h).settled hidle
  rw [← hcommands]
  refine ⟨hsend, hcr, ?_⟩
  rw [← hend, ← OneBit.ended_run]
  rfl

/-- `ioswitchctl -t start`, and `-t stop`. -/
theorem flag_follows_calls_stop :
    ∃ s, Run (Restrict StartLegal Step) (init emptyConfig [] [])
        (boot ++ order .start startEvents ++ order .stop stopEvents) s ∧
      s.sending = false ∧ s.senders.length = 1 := by
  have hexec : (execs (guarded StartLegal exec) (init emptyConfig [] [])
      (boot ++ order .start startEvents ++ order .stop stopEvents)).map (fun s => (s.main.loc.handling, pending s)) =
        some (false, []) := by
    decide +kernel
  obtain ⟨s, hrun, hfin⟩ := Run.exists_of_execs_guarded hexec
  obtain ⟨hidle, hnone⟩ := Prod.mk.inj hfin
  have hmessages : messagesOf (boot ++ order .start startEvents ++ order .stop stopEvents) =
      [plainArgs .start, plainArgs .stop] := by decide +kernel
  have hsent : List.Forall₂ (fun m c => Ctl.Call.Sends c m) [plainArgs .start, plainArgs .stop]
      [.ofWord Ctl.startName, .ofWord Ctl.stopName] :=
    .cons (Ctl.Call.ofWord_sends (by decide)) (.cons (Ctl.Call.ofWord_sends (by decide)) .nil)
  rw [← hmessages] at hsent
  obtain ⟨hsend, hcr, -⟩ := flag_follows_calls hrun hsent hidle hnone
  refine ⟨s, hrun, ?_, ?_⟩
  · rw [hsend]; decide +kernel
  · rw [hcr]; decide +kernel

/-! ## The config -/

/-- What arrives as a command was sent by `ioswitchctl`. -/
def Commanded (e : Event) : Prop := ∀ m ∈ messageOf e, ∃ c : Ctl.Call, c.Sends m

/-- The config loaded at the start is the only one, all senders have it, and all that is read of it is in it. -/
structure ConstantInv (cfg : Config) (tr : List Event) (s : Daemon) : Prop where
  main    : s.main.Ok bareContract BareAt ()
  config  : s.config = 0
  configs : s.configs = [⟨cfg, false⟩]
  senders : ∀ (i : Nat) (d : SenderThread), s.senders[i]? = some d → d.config = 0
  reads   : ∀ i c, senderCall i .config c ∈ tr → c = cfg

theorem constantInv_init (cfg : Config) (conn args : Bytes) : ConstantInv cfg [] (init cfg conn args) where
  main    := Thread.ok_start bare_verified trivial
  config  := rfl
  configs := rfl
  senders := fun _ _ h => by simp [init] at h
  reads   := fun _ _ h => by simp at h

/-- **Step lemma.** -/
theorem constantInv_step (hinv : ConstantInv cfg tr s) (hc : Commanded e) (h : Step s e s') :
    ConstantInv cfg (tr ++ [e]) s' := by
  obtain ⟨hmain, hconfig, hconfigs, hsenders, hreads⟩ := hinv
  have hframe : s'.config = s.config ∧ s'.configs = s.configs := by
    refine config_frame h ?_ ?_
    · rintro rfl
      obtain ⟨t, sh, hf, -, -⟩ := step_main h
      exact hmain.pre hf
    · rintro p c rfl
      obtain ⟨t, sh, hf, -, -⟩ := step_main h
      exact hmain.pre hf
  refine ⟨?_, hframe.1.trans hconfig, hframe.2.trans hconfigs, ?_, ?_⟩
  · refine mainOk_step h hmain (fun l _ hl => bare_verified l _ hl) ?_ fun _ => rfl
    rintro c r rfl -
    cases c with
    | recvArgs fd =>
        refine Classical.or_iff_not_imp_left.mpr fun hret => ?_
        obtain ⟨c, hsends⟩ := hc r.bytes (if_neg hret)
        exact ⟨c.command, Ctl.commandGiven_known _, hsends.plain⟩
    | wild => exact r.elim
    | _ => trivial
  · intro i d' hd'
    rcases sender_cases h hd' with ⟨hd, -⟩ | ⟨a, d, -, hd, hsame, -⟩ | ⟨-, -, rfl⟩
    · exact hsenders i d' hd
    · exact hsame.trans (hsenders i d hd)
    · exact hconfig
  · intro i c hmem
    rcases List.mem_append.mp hmem with hmem | hmem
    · exact hreads i c hmem
    · obtain rfl := List.mem_singleton.mp hmem
      obtain ⟨d, hd, hsh⟩ := shared_sender_call h
      have hholds := (Shared.check_eq.mp hsh).1
      rw [hsenders i d hd, Shared.holdsConfig, hconfigs] at hholds
      simpa [eq_comm] using hholds

theorem constantInv_run (h : Run (Restrict (fun _ => Commanded) Step) (init cfg conn args) tr s) :
    ConstantInv cfg tr s :=
  h.history (constantInv_init cfg conn args) fun _ _ _ _ hinv hs => constantInv_step hinv hs.1 hs.2

/-- **A daemon commanded by `ioswitchctl` keeps its config.** In every run, whoever sends the input streams, the config
    loaded at the start is neither freed nor replaced, what any sender ever reads is in it, nobody is about to access
    what another writes, and the main thread does not leave the command table. -/
theorem config_stays (h : Run (Restrict (fun _ => Commanded) Step) (init cfg conn args) tr s) :
    s.config = 0 ∧ s.configs = [⟨cfg, false⟩] ∧ (∀ i c, senderCall i .config c ∈ tr → c = cfg) ∧
      (∀ who who', ¬ Race s who who') ∧ s.main.rest.next ≠ some .wild := by
  obtain ⟨hmain, hconfig, hconfigs, -, hreads⟩ := constantInv_run h
  have hnext : ∀ {c : ServerCall}, s.main.rest.next = some c → c.Tame := by
    intro c hc
    obtain ⟨k, hr⟩ := Prog.next_eq hc
    exact (hmain.of_call hr).1
  refine ⟨hconfig, hconfigs, hreads, ?_, fun hwild => hnext hwild⟩
  intro who who' hrace
  obtain ⟨i, -, hfree, -⟩ := (locksInv_run h.of_restrict).race hrace
  exact hnext hfree

/-- A RELOAD without a config, which arrives while a sender is between its two reads of the config. -/
def reloadBare : List Event :=
  boot ++ order .start startEvents ++ connectEvents 0 ++ order .reload (mainCall .lockSender () ::
    mainCall .unlockSender () :: stopEvents ++ startEvents)

theorem config_stays_reload : ∃ s, Run (Restrict (fun _ => Commanded) Step) (init emptyConfig [] []) reloadBare s ∧
    s.senders.length = 2 ∧ s.configs = [⟨emptyConfig, false⟩] := by
  have hexec : (execs exec (init emptyConfig [] []) reloadBare).map (·.senders.length) = some 2 := by decide +kernel
  obtain ⟨s, hrun, hlen⟩ := Run.exists_of_execs hexec
  have hmessages : messagesOf reloadBare = [plainArgs .start, plainArgs .reload] := by decide +kernel
  have hcommanded : ∀ e ∈ reloadBare, Commanded e := by
    intro e he m hm
    have hmem : m ∈ messagesOf reloadBare := List.mem_filterMap.mpr ⟨e, he, hm⟩
    simp only [hmessages, List.mem_cons, List.not_mem_nil, or_false] at hmem
    rcases hmem with rfl | rfl
    · exact ⟨_, Ctl.Call.ofWord_sends (w := Ctl.startName) (by decide)⟩
    · exact ⟨_, Ctl.Call.ofWord_sends (w := Ctl.reloadName) (by decide)⟩
  have hlegal : Run (Restrict (fun _ => Commanded) Step) _ reloadBare s := hrun.restrict fun e he _ => hcommanded e he
  exact ⟨s, hlegal, hlen, (config_stays hlegal).2.1⟩

end Daemon

end IOSwitch
