import IOSwitch.Daemon.Script

/-!
# `Daemon.OneBit` — the command machine refines a one-bit machine

Seen from outside, the command handlers maintain one bit: START and RELOAD set it, STOP and KILL clear it,
SWITCH turns it over. `OneBit` is that machine, with the number of senders it asks for and whether it has been
killed; `one_bit_refinement` says that the daemon computes it, whatever the senders do in between, as long as
no START arrives while the bit is set.

Shape: a contract over the main thread's view of the flag (`FlagView`) gives each handler its specification;
`commands_spec` assembles them into "one handler is one step of `OneBit`"; the label invariant `Settled`
carries that through the accept loop, and `history` through every run.

## Contents
- `OneBit`, `OneBit.step`, `OneBit.run` — the abstract machine, and `OneBit.created_run`.
- `flagContract` and the handler specifications.
- `StartLegal`, `FlagInv`, `flagInv_step` — the invariant of a run.
- `one_bit_refinement`.
-/

namespace IOSwitch

open Lib Server

/-! ## The abstract machine -/

/-- What the commands handled so far amount to. -/
structure OneBit where
  sending : Bool
  created : Nat
  ended   : Bool
  deriving DecidableEq

namespace OneBit

def init : OneBit := ⟨false, 0, false⟩

def step (m : OneBit) : CommandType → OneBit
  | .start              => { m with sending := true, created := m.created + 1 }
  | .stop               => { m with sending := false }
  | .switch             => { m with sending := !m.sending, created := m.created + if m.sending then 0 else 1 }
  | .reload             => { m with sending := true, created := m.created + 1 }
  | .kill               => { m with sending := false, ended := true }
  | .none | .list | .other _ => m

/-- The machine after the commands `cs`. -/
def run (cs : List CommandType) : OneBit := cs.foldl step init

@[simp] theorem run_nil : run [] = init := rfl

@[simp] theorem run_snoc (cs : List CommandType) (c : CommandType) : run (cs ++ [c]) = (run cs).step c := by
  rw [run, List.foldl_append]; rfl

/-- The SWITCHes among `cs` that find the bit cleared, when it is `b` before them. -/
def switchesAtZero : Bool → List CommandType → Nat
  | _, []      => 0
  | b, c :: cs => (if c = .switch ∧ b = false then 1 else 0) + switchesAtZero (step ⟨b, 0, false⟩ c).sending cs

/-- The bit moves on its own: neither the count nor the end of the machine matters to it. -/
theorem step_sending (m : OneBit) (c : CommandType) : (m.step c).sending = (step ⟨m.sending, 0, false⟩ c).sending := by
  cases c <;> rfl

theorem foldl_created (cs : List CommandType) (m : OneBit) :
    (cs.foldl step m).created =
      m.created + cs.count .start + switchesAtZero m.sending cs + cs.count .reload := by
  induction cs generalizing m with
  | nil => rfl
  | cons c cs ih =>
      rw [List.foldl_cons, ih, switchesAtZero, step_sending, List.count_cons, List.count_cons]
      cases c with
      | switch => cases hm : m.sending <;> simp [step, hm]; omega
      | _ => simp [step]; try omega

/-- **The number of senders asked for** is the number of STARTs, of SWITCHes at 0 and of RELOADs. -/
theorem created_run (cs : List CommandType) :
    (run cs).created = cs.count .start + switchesAtZero false cs + cs.count .reload := by
  rw [run, foldl_created]
  simp [init]

theorem ended_foldl (cs : List CommandType) (m : OneBit) :
    (cs.foldl step m).ended = true ↔ m.ended = true ∨ .kill ∈ cs := by
  induction cs generalizing m with
  | nil => simp
  | cons c cs ih =>
      rw [List.foldl_cons, ih]
      cases c <;> simp [step]

/-- The machine has ended iff it was killed. -/
theorem ended_run (cs : List CommandType) : (run cs).ended = true ↔ .kill ∈ cs := by
  rw [run, ended_foldl]
  simp [init]

end OneBit

/-! ## The handlers against the flag -/

/-- What the main thread's handlers see and do: whether one is in progress, whether the main thread holds the
    sender mutex, the flag, the number of senders, and the abstract machine they have to match (`due`). -/
structure FlagView where
  handling : Bool
  held     : Bool
  sending  : Bool
  created  : Nat
  due      : OneBit

/-- The flag and the config are accessed in handlers and under the mutex; the mutex is never taken twice; the
    branch that finds the daemon already sending is never taken. -/
def flagContract : Contract serverI FlagView where
  pre g c := match c with
    | .lockSender => g.handling = true ∧ g.held = false
    | .unlockSender | .sending | .setSending _ | .freeConfig | .loadConfig _ =>
        g.handling = true ∧ g.held = true
    | .createSender         => g.handling = true
    | .printf .alreadySending => False
    | _                     => True
  post g c r g' := match c, r with
    | .lockSender, _   => g' = { g with held := true }
    | .unlockSender, _ => g' = { g with held := false }
    | .sending, b      => b = g.sending ∧ g' = g
    | .setSending b, _ => g' = { g with sending := b }
    | .createSender, _ => g' = { g with created := g.created + 1 }
    | _, _             => g' = g

section Handlers

variable {g : FlagView} (hh : g.handling = true) (hf : g.held = false) (args : CommandArgs)
include hh hf

theorem start_spec (hs : g.sending = false) :
    wp flagContract (Handler.start args)
      (fun g' r => g' = { g with sending := true, created := g.created + 1 } ∧ r ≠ 1) g := by
  simp [Handler.start, flagContract, hh, hf, hs]

theorem stop_spec :
    wp flagContract (Handler.stop args) (fun g' r => g' = { g with sending := false } ∧ r ≠ 1) g := by
  simp [Handler.stop, flagContract, hh, hf]

theorem switchState_spec :
    wp flagContract (Handler.switchState args)
      (fun g' r => g' = { g with
        sending := !g.sending, created := g.created + if g.sending then 0 else 1 } ∧ r ≠ 1) g := by
  unfold Handler.switchState
  -- the mutex is released between the test and the inner handler; only handlers write the flag
  cases hs : g.sending with
  | true => simp [flagContract, hh, hf, hs, Handler.stop]
  | false => simp [flagContract, hh, hf, hs, Handler.start]

theorem reload_spec :
    wp flagContract (Handler.reload args)
      (fun g' r => g' = { g with sending := true, created := g.created + 1 } ∧ r ≠ 1) g := by
  unfold Handler.reload Handler.replaceConfig
  by_cases hr : args.reloadConfig ≠ 0
  · simp [hr, flagContract, hh, hf, Handler.stop, Handler.start]
  · simp [hr, flagContract, hh, hf, Handler.stop, Handler.start]

theorem kill_spec :
    wp flagContract (Handler.kill args) (fun g' r => g' = { g with sending := false } ∧ r = 1) g := by
  simp [Handler.kill, Handler.stop, flagContract, hh, hf]

/-- **One handler is one step of the abstract machine.** -/
theorem commands_spec (hs : args.type = .start → g.sending = false) :
    wp flagContract (commands args)
      (fun g' r => g'.held = false ∧ g'.due = g.due ∧
        (⟨g'.sending, g'.created, decide (r = 1)⟩ : OneBit) =
          OneBit.step ⟨g.sending, g.created, false⟩ args.type) g := by
  unfold commands
  cases ht : args.type with
  | none | list => simp [Handler.none, Handler.list, OneBit.step, hf]
  | start => exact wp_mono (start_spec hh hf args (hs ht)) (by rintro _ r ⟨rfl, hr⟩; simp [OneBit.step, hf, hr])
  | stop => exact wp_mono (stop_spec hh hf args) (by rintro _ r ⟨rfl, hr⟩; simp [OneBit.step, hf, hr])
  | switch =>
      exact wp_mono (switchState_spec hh hf args) (by rintro _ r ⟨rfl, hr⟩; simp [OneBit.step, hf, hr])
  | reload => exact wp_mono (reload_spec hh hf args) (by rintro _ r ⟨rfl, hr⟩; simp [OneBit.step, hf, hr])
  | kill => exact wp_mono (kill_spec hh hf args) (by rintro _ r ⟨rfl, hr⟩; simp [OneBit.step, hf, hr])
  | other code => exact ⟨trivial, fun r => r.elim⟩

end Handlers

/-! ## Runs -/

/-- The label is a command handler in progress. -/
def ServerLoc.handling : ServerLoc → Bool
  | handle _ _                       => true
  | entry _ _ | loop _ _ | returned _ => false

namespace Daemon

/-- The command that `run_server` dispatches in an event. -/
def commandOf : Event → Option CommandType
  | .main (.jump (.handle _ args)) => some (CommandArgs.ofMem args).type
  | _                              => none

/-- The commands dispatched, in order. -/
def commandsOf (tr : List Event) : List CommandType := tr.filterMap commandOf

theorem commandsOf_snoc (tr : List Event) (e : Event) :
    commandsOf (tr ++ [e]) = commandsOf tr ++ (commandOf e).toList := by
  rw [commandsOf, List.filterMap_append, ← commandsOf]
  cases h : commandOf e <;> simp [h]

/-- An explicit START arrives only while `*sending` is 0. -/
def StartLegal (s : Daemon) (e : Event) : Prop := commandOf e = some .start → s.sending = false

instance (s : Daemon) (e : Event) : Decidable (StartLegal s e) := inferInstanceAs (Decidable (_ → _))

def flagView (tr : List Event) (s : Daemon) : FlagView where
  handling := s.main.loc.handling
  held     := s.senderMutex = some .main
  sending  := s.sending
  created  := s.senders.length
  due      := OneBit.run (commandsOf tr)

/-- Between handlers the mutex is free of the main thread, and the daemon is where the abstract machine is;
    `run_server` has returned 0 iff that one has ended. -/
def Settled (l : ServerLoc) (g : FlagView) : Prop :=
  g.held = false ∧ g.sending = g.due.sending ∧ g.created = g.due.created ∧ (g.due.ended = true ↔ l = .returned 0)

/-- The invariant of a run: the main thread keeps `flagContract`, and nothing is owed between handlers. -/
structure FlagInv (tr : List Event) (s : Daemon) : Prop where
  main    : s.main.Ok flagContract Settled (flagView tr s)
  settled : s.main.loc.handling = false → Settled s.main.loc (flagView tr s)

/-- Every block but a handler leaves the view alone. -/
theorem block_settled {l : ServerLoc} {g : FlagView} (hl : l.handling = false) (h : Settled l g) :
    wp flagContract (runServer l) (fun g' l' => Settled l' g') g := by
  obtain ⟨hf, hs, hc, he⟩ := h
  -- the accept loop makes no call that the view depends on
  have hplain : ∀ c : ServerCall, c.Plain →
      flagContract.pre g c ∧ ∀ r g', flagContract.post g c r g' → g' = g := by
    intro c hc
    cases c with
    | wild => exact ⟨trivial, fun r => r.elim⟩
    | lockSender | unlockSender | sending | setSending _ | freeConfig | loadConfig _ | createSender
    | printf _ => exact hc.elim
    | _ => exact ⟨trivial, fun _ _ h => h⟩
  cases l with
  | entry conn args =>
      have hne : ¬ g.due.ended = true := by simp [he]
      refine ⟨trivial, ?_⟩
      rintro r _ rfl
      show wp _ (if r < 0 then _ else _) _ _
      split <;> simp [Settled, *]
  | loop conn args =>
      have hne : ¬ g.due.ended = true := by simp [he]
      refine wp_mono (wp_neutral (acceptOne_plain conn args) hplain) ?_
      rintro _ l' ⟨rfl, hl'⟩
      -- a round of the loop returns with -1 only, so that a return of 0 still means KILL
      refine ⟨hf, hs, hc, iff_of_false hne ?_⟩
      rintro rfl
      exact absurd (show (0 : Int) = -1 from hl') (by decide)
  | handle conn args => cases hl
  | returned code => exact ⟨hf, hs, hc, he⟩

/-- A handler started between handlers ends where the abstract machine has gone. -/
theorem handle_settled {l : ServerLoc} {conn args : Bytes} {g : FlagView} (h : Settled l g) (hl : l ≠ .returned 0)
    (hs : (CommandArgs.ofMem args).type = .start → g.sending = false) :
    wp flagContract (runServer (.handle conn args)) (fun g' l' => Settled l' g')
      { g with handling := true, due := g.due.step (CommandArgs.ofMem args).type } := by
  obtain ⟨hf, hsend, hcr, he⟩ := h
  have hne : g.due.ended = false := by simpa [hl] using he
  have hdue : g.due = ⟨g.sending, g.created, false⟩ := by rw [hsend, hcr, ← hne]
  let g₀ : FlagView := { g with handling := true, due := g.due.step (CommandArgs.ofMem args).type }
  refine wp_seq (commands_spec (g := g₀) rfl hf (CommandArgs.ofMem args) hs) ?_
  rintro g' r ⟨hf', hd, hm⟩
  have hd' : g'.due = ⟨g'.sending, g'.created, decide (r = 1)⟩ := by
    rw [hd, hm]
    show g.due.step _ = _
    rw [hdue]
  by_cases hr : r = 1
  · simp [Settled, hf', hd', hr]
  · simp [Settled, hf', hd', hr]

variable {tr : List Event} {s s' : Daemon} {e : Event}

/-- Only the main thread changes the view. -/
theorem flagView_frame (h : Step s e s') (he : ∀ a, e ≠ .main a) :
    flagView (tr ++ [e]) s' = flagView tr s := by
  have hcmd : commandOf e = none := by
    cases e with
    | main a => exact absurd rfl (he a)
    | _ => rfl
  have hmain : s'.main = s.main := by
    rcases main_cases h with ⟨hm, -⟩ | ⟨a, rfl, -⟩
    · exact hm
    · exact absurd rfl (he a)
  have htid : tidOf e ≠ some .main := by
    cases e with
    | main a => exact absurd rfl (he a)
    | _ => simp [tidOf]
  have hheld := held_frame h htid
  have hsend := sending_frame h fun b => he _
  have hlen := senders_length h (he _)
  simp only [flagView, hmain, hheld, hsend, hlen, commandsOf_snoc, hcmd, Option.toList_none, List.append_nil]

/-- A jump of the main thread changes the view by its label. -/
theorem flagView_jump {l : ServerLoc} (h : Step s (.main (.jump l)) s') :
    flagView (tr ++ [.main (.jump l)]) s' =
      { flagView tr s with
        handling := l.handling, due := OneBit.run (commandsOf (tr ++ [.main (.jump l)])) } := by
  have hsh := shared_main h (by rintro c r ⟨⟩)
  have hlen := senders_length h (by simp)
  have hmain : s'.main.loc = l := by
    obtain ⟨t, sh, ht, -, rfl⟩ := step_main h
    rw [Thread.jump_start ht]; rfl
  have hheld : s'.senderMutex = s.senderMutex := by rw [hsh]
  have hsend : s'.sending = s.sending := by rw [hsh]
  simp only [flagView, hmain, hheld, hsend, hlen]

/-- A call of the main thread changes the view as the contract says. -/
theorem flagView_did {c : ServerCall} {r : c.Resp} (h : Step s (.main (.did c r)) s') :
    flagContract.post (flagView tr s) c r (flagView (tr ++ [.main (.did c r)]) s') := by
  have hloc : s'.main.loc = s.main.loc := by
    obtain ⟨t, sh, ht, -, rfl⟩ := step_main h
    exact Thread.did_loc ht
  have hcmd : commandsOf (tr ++ [.main (.did c r)]) = commandsOf tr := by simp [commandsOf_snoc, commandOf]
  have hsh := shared_call h
  -- all but `createSender` leave the list of senders alone
  have hlen : c ≠ .createSender → s'.senders.length = s.senders.length := fun hc =>
    senders_length h (by rintro ⟨⟩; exact hc rfl)
  unfold flagView
  rw [hcmd, hloc]
  cases c with
  | lockSender => simp [flagContract, (Shared.lockSender_eq.mp hsh).2, hlen]
  | unlockSender => simp [flagContract, (Shared.unlockSender_eq.mp hsh).2, hlen]
  | sending =>
      obtain ⟨hb, hs⟩ := Shared.check_eq.mp hsh
      exact ⟨by simpa using hb, by simp [hs, hlen]⟩
  | setSending b => simp [flagContract, ← Option.some.inj hsh, hlen]
  | createSender => simp [flagContract, ← Option.some.inj hsh, senders_create h]
  | freeConfig | loadConfig _ | printf _ => simp [flagContract, ← Option.some.inj hsh, hlen]
  | wild => exact r.elim
  | _ =>
      have hs := Shared.serverEffect_plain hsh trivial
      simp only [flagContract, hlen (by simp)]
      rw [hs]

/-- Between handlers no allowed call changes the view. -/
theorem flagContract_idle {c : ServerCall} {r : c.Resp} {g g' : FlagView} (hg : g.handling = false)
    (hpre : flagContract.pre g c) (hpost : flagContract.post g c r g') : g' = g := by
  cases c with
  | lockSender | unlockSender | sending | setSending _ | freeConfig | loadConfig _ =>
      exact absurd (hg.symm.trans hpre.1) Bool.false_ne_true
  | createSender => exact absurd (hg.symm.trans hpre) Bool.false_ne_true
  | wild => exact r.elim
  | _ => exact hpost

theorem flagInv_init (cfg : Config) (conn args : Bytes) : FlagInv [] (init cfg conn args) := by
  have h0 : Settled (.entry conn args) (flagView [] (init cfg conn args)) := by
    simp [Settled, flagView, init, Thread.start, commandsOf, OneBit.init]
  exact ⟨block_settled rfl h0, fun _ => h0⟩

/-- **Step lemma.** A step in which no START arrives at 1 keeps the invariant. -/
theorem flagInv_step (hinv : FlagInv tr s) (hok : StartLegal s e) (h : Step s e s') :
    FlagInv (tr ++ [e]) s' := by
  constructor
  · refine mainOk_step h hinv.main ?_ ?_ fun he => flagView_frame h he
    · rintro l rfl hl
      rw [flagView_jump h, commandsOf_snoc]
      cases l with
      | handle conn args =>
          rw [show commandOf _ = some (CommandArgs.ofMem args).type from rfl, Option.toList_some, OneBit.run_snoc]
          -- a handler is entered: the abstract machine has made its step already
          exact handle_settled hl (by simp) fun ht => hok (by simp [commandOf, ht])
      | entry conn args | loop conn args | returned code =>
          rw [show commandOf _ = none from rfl, Option.toList_none, List.append_nil]
          exact block_settled rfl hl
    · rintro c r rfl -
      exact flagView_did h
  · intro hidle
    rcases main_cases h with ⟨hm, he⟩ | ⟨a, rfl, hf⟩
    · rw [hm] at hidle ⊢
      rw [flagView_frame h he]
      exact hinv.settled hidle
    · cases a with
      | jump l =>
          have hl : Settled l (flagView tr s) := hinv.main.label hf
          rw [Thread.jump_start hf] at hidle ⊢
          have hcmd : commandOf (.main (.jump l)) = none := by
            cases l with
            | handle conn args => exact absurd hidle (by simp [Thread.start, ServerLoc.handling])
            | _ => rfl
          rw [flagView_jump h, commandsOf_snoc, hcmd, Option.toList_none, List.append_nil]
          exact hl
      | did c r =>
          have hpre := hinv.main.pre hf
          rw [Thread.did_loc hf] at hidle ⊢
          -- a call between handlers, which leaves the view as it was
          rw [flagContract_idle hidle hpre (flagView_did h)]
          exact hinv.settled hidle

/-- **Run lemma.** -/
theorem flagInv_run {cfg : Config} {conn args : Bytes}
    (h : Run (Restrict StartLegal Step) (init cfg conn args) tr s) : FlagInv tr s :=
  h.history (flagInv_init cfg conn args) fun _ _ _ _ hinv hs => flagInv_step hinv hs.1 hs.2

/-- The branch of `start` that finds the daemon already sending. -/
def AlreadySending (e : Event) : Prop := e = .main (.did (.printf .alreadySending) ())

theorem not_alreadySending {cfg : Config} {conn args : Bytes}
    (h : Run (Restrict StartLegal Step) (init cfg conn args) tr s) : ∀ e ∈ tr, ¬ AlreadySending e := by
  induction h with
  | nil => simp
  | snoc hrun hs ih =>
      intro e he
      rcases List.mem_append.mp he with he | he
      · exact ih e he
      · obtain rfl := List.mem_singleton.mp he
        rintro rfl
        obtain ⟨t, sh, hf, -, -⟩ := step_main hs.2
        exact (flagInv_run hrun).main.pre hf

/-- **The command machine refines the one-bit machine.** In every run in which no START arrives while the
    daemon is sending, after each handler the flag is the abstract bit, `run_server` has returned 0 iff a KILL
    was handled, and the senders created are the STARTs, the SWITCHes at 0 and the RELOADs; and no inner
    `start` ever takes its `Already Sending` branch. -/
theorem one_bit_refinement {cfg : Config} {conn args : Bytes}
    (h : Run (Restrict StartLegal Step) (init cfg conn args) tr s) :
    (s.main.loc.handling = false →
      s.sending = (OneBit.run (commandsOf tr)).sending ∧
      (s.main.loc = .returned 0 ↔ .kill ∈ commandsOf tr) ∧
      s.senders.length = (commandsOf tr).count .start + OneBit.switchesAtZero false (commandsOf tr) +
        (commandsOf tr).count .reload) ∧
    ∀ e ∈ tr, ¬ AlreadySending e := by
  refine ⟨fun hidle => ?_, not_alreadySending h⟩
  obtain ⟨-, hsend, hcr, hend⟩ := (flagInv_run h).settled hidle
  refine ⟨hsend, ?_, ?_⟩
  · rw [← hend, ← OneBit.ended_run]; rfl
  · rw [← OneBit.created_run]; exact hcr

/-- START and STOP, the sender not scheduled in between. -/
theorem one_bit_refinement_start_stop :
    ∃ s, Run (Restrict StartLegal Step) (init emptyConfig [] [])
      (boot ++ order .start startEvents ++ order .stop stopEvents) s ∧
      s.sending = false ∧ s.senders.length = 1 := by
  have hexec : (execs (guarded StartLegal exec) (init emptyConfig [] [])
      (boot ++ order .start startEvents ++ order .stop stopEvents)).map (·.main.loc.handling) = some false := by
    decide +kernel
  obtain ⟨s, hrun, hloc⟩ := Run.exists_of_execs_guarded hexec
  obtain ⟨hsend, -, hlen⟩ := (one_bit_refinement hrun).1 hloc
  refine ⟨s, hrun, ?_, ?_⟩
  · rw [hsend]; decide +kernel
  · rw [hlen]; decide +kernel

end Daemon

end IOSwitch
