import IOSwitch.Daemon.Active

/-!
# `Daemon.Truth` — the flag and the sender it stands for

While the flag is 1 and no `start` is under way, the flag stands for the sender created last. A sender leaves
its code in two ways: it reads a flag of 0, or one of its calls fails. The first it cannot do while the flag
is 1; the second nothing reports to the flag. So the flag tells the truth in every run in which no call of the
newest sender fails while the flag is 1 (`sending_tells_truth`), and a single failing `socket` makes it lie
(`failed_sender_leaves_flag`).

## Contents
- `failed`, `healthyContract`, `healthy_verified` — a sender none of whose calls fails stays active.
- `TruthInv`, `truthInv_step` — the newest sender is healthy.
- `createContract` — a START or SWITCH that finds the flag at 0 creates a sender.
- `sending_tells_truth`, `failed_sender_leaves_flag`.
-/

namespace IOSwitch

open Lib Sender Server

/-! ## Healthy senders -/

/-- The answer on which the sender gives up. -/
def failed : (c : SenderCall) → c.Resp → Bool
  | .socket, r        => r < 0
  | .inetPton _, r    => r ≤ 0
  | .connect _ _ _, r => r < 0
  | .openDevice _, r  => r < 0
  | .sendConn _ _, r  => r < 0
  | .poll _, r        => r.ret < 0
  | .read _ _, r      => r.ret < 0
  | .send _ _, r      => r ≤ 0
  | _, _              => false

/-- No call fails, and the flag is always found at 1. -/
def healthyContract : Contract senderI Unit where
  pre _ _ := True
  post _ c r _ := match c, r with
    | .sending, b => b = true
    | c, r        => failed c r = false

/-- Active, and about to stay so. -/
def SenderLoc.healthy : SenderLoc → Bool
  | entry | loop _ | round _ _ | check _ true => true
  | check _ false | leave _ | exited          => false

theorem SenderLoc.healthy_active {l : SenderLoc} (h : l.healthy = true) : l.active = true := by
  cases l with
  | leave _ | exited => cases h
  | entry | loop _ | round _ _ | check _ _ => rfl

def Healthy (l : SenderLoc) (_ : Unit) : Prop := l.healthy = true

theorem connectToServer_healthy (fd : Int) (ip : Bytes) (port : UInt16) :
    wp healthyContract (connectToServer fd ip port) (fun _ r => ¬ r < 0) () := by
  refine ⟨trivial, ?_⟩
  intro r _ hr
  have hr' : ¬ r ≤ 0 := of_decide_eq_false hr
  show wp _ (if r ≤ 0 then _ else _) _ _
  rw [if_neg hr']
  refine ⟨trivial, ?_⟩
  intro r _ hr
  have hr' : ¬ r < 0 := of_decide_eq_false hr
  show wp _ (if r < 0 then _ else _) _ _
  rw [if_neg hr']
  exact Int.lt_irrefl 0

theorem openDevices_healthy (config : Config) (n i : Nat) (conn : NewConnection) (fds : List Int) :
    wp healthyContract (openDevices config n i conn fds) (fun _ r => r ≠ none) () := by
  induction n generalizing i conn fds with
  | zero => exact Option.some_ne_none _
  | succ n ih =>
      refine ⟨trivial, ?_⟩
      intro fd _ hfd
      have hfd' : ¬ fd < 0 := of_decide_eq_false hfd
      show wp _ (if fd < 0 then _ else _) _ _
      rw [if_neg hfd']
      exact ih _ _ _

theorem forwardReady_healthy (devfd : List Int) (revents : List Bool) (dest : Int) (n i : Nat)
    (packet : InputPacket) :
    wp healthyContract (forwardReady devfd revents dest n i packet) (fun _ r => 0 ≤ r) () := by
  induction n generalizing i packet with
  | zero => exact Int.le_refl 0
  | succ n ih =>
      unfold forwardReady
      by_cases hready : revents.getD i false = true
      · rw [if_pos hready]
        refine ⟨trivial, ?_⟩
        intro r _ hr
        have hr' : ¬ r.ret < 0 := of_decide_eq_false hr
        show wp _ (if r.ret < 0 then _ else _) _ _
        rw [if_neg hr']
        refine ⟨trivial, ?_⟩
        intro sent _ hsent
        have hsent' : ¬ sent ≤ 0 := of_decide_eq_false hsent
        show wp _ (if sent ≤ 0 then _ else _) _ _
        rw [if_neg hsent']
        exact ih _ _
      · rw [if_neg hready]
        exact ih _ _

theorem sendInputEvent_healthy (k : Nat) (devfd : List Int) (dest : Int) :
    wp healthyContract (sendInputEvent k devfd dest) (fun _ r => 0 ≤ r) () := by
  refine ⟨trivial, ?_⟩
  intro p _ hp
  have hp' : ¬ p.ret < 0 := of_decide_eq_false hp
  show wp _ (if p.ret < 0 then _ else _) _ _
  rw [if_neg hp']
  exact forwardReady_healthy _ _ _ _ _ _

theorem setup_healthy : wp healthyContract setup (fun _ l => l.healthy = true) () := by
  refine ⟨trivial, ?_⟩
  intro fd _ hfd
  have hfd' : ¬ fd < 0 := of_decide_eq_false hfd
  show wp _ (if fd < 0 then _ else _) _ _
  rw [if_neg hfd']
  refine ⟨trivial, fun _ _ _ => ⟨trivial, fun config _ _ => ?_⟩⟩
  show wp _ (connectToServer _ _ _ >>= _) _ _
  apply wp_seq (connectToServer_healthy _ _ _)
  intro _ r hr
  show wp _ (if r < 0 then _ else _) _ _
  rw [if_neg hr]
  refine ⟨trivial, fun _ _ _ => ⟨trivial, fun config _ _ => ?_⟩⟩
  refine ⟨trivial, fun _ _ _ => ⟨trivial, fun config _ _ => ?_⟩⟩
  show wp _ (openDevices _ _ _ _ _ >>= _) _ _
  apply wp_seq (openDevices_healthy _ _ _ _ _)
  intro _ opened ho
  cases opened with
  | none => exact absurd rfl ho
  | some connFds =>
      refine ⟨trivial, fun _ _ _ => ⟨trivial, fun sent _ hsent => ?_⟩⟩
      have hsent' : ¬ sent < 0 := of_decide_eq_false hsent
      show wp _ (if sent < 0 then _ else _) _ _
      rw [if_neg hsent']
      exact ⟨trivial, fun _ _ _ => rfl⟩

/-- **A healthy sender stays healthy.** -/
theorem healthy_verified : Thread.Verified healthyContract spawnSenderThread Healthy := by
  intro l _ hl
  cases l with
  | entry => exact setup_healthy
  | loop env => exact ⟨trivial, fun _ _ _ => ⟨trivial, fun _ _ _ => ⟨trivial, fun _ _ _ => rfl⟩⟩⟩
  | round env k =>
      apply wp_seq (sendInputEvent_healthy _ _ _)
      intro _ r hr
      show SenderLoc.healthy (.check env (decide (0 ≤ r))) = true
      rw [decide_eq_true hr]
      rfl
  | check env connected =>
      cases connected with
      | false => cases hl
      | true =>
          refine ⟨trivial, fun _ _ _ => ⟨trivial, fun b _ hb => ⟨trivial, fun _ _ _ => ?_⟩⟩⟩
          obtain rfl : b = true := hb
          rfl
  | leave env => cases hl
  | exited => cases hl

namespace Daemon

variable {s s' : Daemon} {e : Event} {tr : List Event}

/-! ## The invariant -/

/-- While no sender is owed the main thread is not starting one. -/
theorem not_starting_of_rest {p : Prog serverI ServerLoc} {ph : StartPhase} (hph : ph.rest = true)
    (h : wp startContract p (fun ph l => AtRest l ph) ph) : ¬ Starting p := by
  induction p generalizing ph with
  | ret l => exact id
  | call c k ih =>
      obtain ⟨hpre, hpost⟩ := h
      rintro (hc | ⟨hw, r, hr⟩)
      · cases c with
        | createSender =>
            obtain rfl : ph = .released := hpre
            cases hph
        | _ => exact hc
      · cases c with
        | setSending b => exact hw trivial
        | lockSender => exact ih r rfl (hpost r .locked rfl) hr
        | unlockSender =>
            refine ih r ?_ (hpost r _ rfl) hr
            rcases hpre with rfl | rfl
            · rfl
            · cases hph
        | createSender => exact ih r rfl (hpost r .idle rfl) hr
        | _ => exact ih r hph (hpost r ph rfl) hr

/-- **Starting a sender is owing one.** -/
theorem starting_iff (hinv : PhaseInv tr s) : Starting s.main.rest ↔ (phaseOf tr).rest = false := by
  constructor
  · intro hstart
    by_contra hph
    rw [Bool.not_eq_false] at hph
    exact not_starting_of_rest hph hinv.main hstart
  · intro hph
    exact starting_of_owed hph hinv.main

/-- A failing call of the sender created last, while the flag is 1 and no `start` is under way. -/
def NewestFails (s : Daemon) (e : Event) : Prop :=
  s.sending = true ∧ ¬ Starting s.main.rest ∧
  ∃ i c r, e = .sender i (.did c r) ∧ i + 1 = s.senders.length ∧ failed c r = true

/-- The newest sender does not fail while the flag stands for it. -/
def NewestHealthy (s : Daemon) (e : Event) : Prop := ¬ NewestFails s e

/-- While the flag is 1 and no `start` is under way, the newest sender is healthy. -/
def TruthInv (tr : List Event) (s : Daemon) : Prop :=
  s.sending = true → (phaseOf tr).rest = true →
    ∃ d, s.senders.getLast? = some d ∧ d.thread.loc.healthy = true ∧ d.thread.Ok healthyContract Healthy ()

/-- Only the creation of a sender ends the debt. -/
theorem rest_before (hinv : PhaseInv tr s) (h : Step s e s') (he : e ≠ .main (.did .createSender ()))
    (hph : (phaseOf (tr ++ [e])).rest = true) : (phaseOf tr).rest = true := by
  rw [phaseOf_snoc] at hph
  cases e with
  | main a =>
      cases a with
      | jump l => exact hph
      | did c r =>
          obtain ⟨t, sh, hf, -, -⟩ := step_main h
          have hpre := hinv.main.pre hf
          cases c with
          | setSending b =>
              have hlocked : phaseOf tr = .locked := hpre
              rw [hlocked]; rfl
          | unlockSender =>
              rcases hpre with hlocked | hraised
              · rw [hlocked]; rfl
              · rw [hraised] at hph; cases hph
          | printf n => exact hph
          | createSender => exact absurd rfl he
          | _ => exact hpre
  | _ => exact hph

/-- **Step lemma.** -/
theorem truthInv_step (hphase : PhaseInv tr s) (hinv : TruthInv tr s) (hok : NewestHealthy s e)
    (h : Step s e s') : TruthInv (tr ++ [e]) s' := by
  intro hsend hph
  by_cases hcreate : e = .main (.did .createSender ())
  · subst hcreate
    have hlast : s'.senders.getLast? = some ⟨s.config, .start spawnSenderThread .entry⟩ := by
      rw [senders_create h, List.getLast?_concat]
    exact ⟨_, hlast, rfl, healthy_verified .entry () rfl⟩
  have hrest := rest_before hphase h hcreate hph
  -- the flag is 1 after the step and no `start` is under way, so it was not written
  have hset : ∀ b, e ≠ .main (.did (.setSending b) ()) := by
    rintro b rfl
    cases b with
    | true => rw [phaseOf_snoc] at hph; cases hph
    | false => rw [sending_set h] at hsend; cases hsend
  rw [sending_frame h hset] at hsend
  obtain ⟨d, hlast, hloc, hd⟩ := hinv hsend hrest
  have hlen := senders_length h hcreate
  -- the newest sender keeps its place; it may have moved
  rw [List.getLast?_eq_getElem?] at hlast
  have hpos := (List.getElem?_eq_some_iff.mp hlast).1
  obtain ⟨d', hd', -, hmoved⟩ := sender_next h hlast
  refine ⟨d', by rw [List.getLast?_eq_getElem?, hlen]; exact hd', ?_⟩
  rcases hmoved with ⟨rfl, -⟩ | ⟨a, rfl, hf⟩
  · exact ⟨hloc, hd⟩
  · cases a with
    | jump l =>
        have hl : l.healthy = true := hd.label hf
        rw [Thread.jump_start hf]
        exact ⟨hl, healthy_verified l () hl⟩
    | did c r =>
        refine ⟨by rw [Thread.did_loc hf]; exact hloc, hd.did hf ?_⟩
        -- its call has not failed: the step is legal, and the flag is 1
        have hgood : failed c r = false := by
          by_contra hfail
          rw [Bool.not_eq_false] at hfail
          refine hok ⟨hsend, ?_, _, c, r, rfl, by omega, hfail⟩
          rw [starting_iff hphase, hrest]
          exact Bool.noConfusion
        cases c with
        | sending => exact (sending_read h).trans hsend
        | _ => exact hgood

/-- **Run lemma.** -/
theorem truthInv_run {cfg : Config} {conn args : Bytes}
    (h : Run (Restrict NewestHealthy Step) (init cfg conn args) tr s) : TruthInv tr s := by
  induction h with
  | nil => rintro ⟨⟩
  | snoc hrun hs ih => exact truthInv_step (phaseInv_run hrun.of_restrict) ih hs.1 hs.2

/-! ## The next START or SWITCH -/

/-- What the calls of the main thread do to the view, whichever of them it makes. -/
def viewContract : Contract serverI FlagView := { flagContract with pre := fun _ _ => True }

/-- A START or SWITCH that finds the flag at 0 creates one sender. -/
theorem commands_create {g : FlagView} {a : CommandArgs} (hs : g.sending = false)
    (ht : a.type = .start ∨ a.type = .switch) :
    wp viewContract (commands a) (fun g' _ => g'.created = g.created + 1) g := by
  unfold commands
  rcases ht with ht | ht
  · simp [ht, Handler.start, viewContract, flagContract, hs]
  · simp [ht, Handler.switchState, Handler.start, viewContract, flagContract, hs]

/-- The main thread stays in its block. -/
def InBlock (_ : Daemon) (e : Event) : Prop := ∀ l, e ≠ .main (.jump l)

/-- Within its block the main thread keeps what it has to do. -/
theorem wp_view_step {Q : FlagView → Prop} (h : wp viewContract s.main.rest (fun g _ => Q g) (flagView tr s))
    (hblock : InBlock s e) (hs : Step s e s') :
    wp viewContract s'.main.rest (fun g _ => Q g) (flagView (tr ++ [e]) s') := by
  rcases main_cases hs with ⟨hm, he⟩ | ⟨a, rfl, hf⟩
  · rw [hm, flagView_frame hs he]
    exact h
  · cases a with
    | jump l => exact absurd rfl (hblock l)
    | did c r => exact Thread.Ok.did (J := fun _ g => Q g) h hf (flagView_did hs)

/-- When the handler of a START or SWITCH that found the flag at 0 is done, there is one more sender. -/
theorem handler_creates {conn args : Bytes} {tr' : List Event} {l : ServerLoc}
    (hm : s.main = .start runServer (.handle conn args)) (hs : s.sending = false)
    (ht : (CommandArgs.ofMem args).type = .start ∨ (CommandArgs.ofMem args).type = .switch)
    (h : Run (Restrict InBlock Step) s tr' s') (hret : s'.main.rest = .ret l) :
    s'.senders.length = s.senders.length + 1 := by
  have hspec : wp viewContract s.main.rest (fun g _ => g.created = s.senders.length + 1) (flagView [] s) := by
    rw [hm]
    exact wp_seq (commands_create hs ht) fun _ _ hg => hg
  have hdone := Run.history
    (I := fun tr s' => wp viewContract s'.main.rest (fun g _ => g.created = s.senders.length + 1) (flagView tr s'))
    h hspec fun _ _ _ _ ha hstep => wp_view_step ha hstep.1 hstep.2
  rw [hret] at hdone
  exact hdone

/-! ## The flag tells the truth -/

/-- **The flag tells the truth about the sender.** In every run in which no call of the newest sender fails
    while the flag is 1: when the main thread is not starting a sender and none is active, the flag is 0, and
    the handler of a START or SWITCH dispatched then creates a sender before it is done. -/
theorem sending_tells_truth {cfg : Config} {conn args : Bytes}
    (h : Run (Restrict NewestHealthy Step) (init cfg conn args) tr s)
    (hstart : ¬ Starting s.main.rest) (hnone : NoneActive s) :
    s.sending = false ∧
    ∀ conn args tr' s' l, s.main = .start runServer (.handle conn args) →
      (CommandArgs.ofMem args).type = .start ∨ (CommandArgs.ofMem args).type = .switch →
      Run (Restrict InBlock Step) s tr' s' → s'.main.rest = .ret l →
      s'.senders.length = s.senders.length + 1 := by
  have hphase := phaseInv_run h.of_restrict
  have hflag : s.sending = false := by
    by_contra hsend
    rw [Bool.not_eq_false] at hsend
    rw [starting_iff hphase, Bool.not_eq_false] at hstart
    obtain ⟨d, hlast, hloc, -⟩ := truthInv_run h hsend hstart
    have hact := SenderLoc.healthy_active hloc
    exact absurd ((hnone d (List.mem_of_getLast? hlast)).symm.trans hact) Bool.false_ne_true
  exact ⟨hflag, fun conn args tr' s' l hm ht hrun hret => handler_creates hm hflag ht hrun hret⟩

/-- No call of a sender fails in the event. -/
def sound : Event → Bool
  | .sender _ (.did c r) => !failed c r
  | _                    => true

theorem newestHealthy_of_sound (h : sound e = true) : NewestHealthy s e := by
  rintro ⟨-, -, i, c, r, rfl, -, hfail⟩
  simp [sound, hfail] at h

/-- START and STOP, and a sender that finds the flag at 0 after its first round. -/
theorem sending_tells_truth_start_stop :
    ∃ s, Run (Restrict NewestHealthy Step) (init emptyConfig [] [])
      (boot ++ order .start startEvents ++ joinEvents 0 ++ order .stop stopEvents ++ leaveEvents 0) s ∧
      s.senders.length = 1 ∧ s.sending = false := by
  have hexec : (execs exec (init emptyConfig [] [])
      (boot ++ order .start startEvents ++ joinEvents 0 ++ order .stop stopEvents ++ leaveEvents 0)).map
      (fun s => (s.senders.length, decide (NoneActive s))) = some (1, true) := by
    decide +kernel
  obtain ⟨s, hrun, hfin⟩ := Run.exists_of_execs hexec
  obtain ⟨hlen, hnone⟩ := Prod.mk.inj hfin
  have hsound : ∀ e ∈ boot ++ order .start startEvents ++ joinEvents 0 ++ order .stop stopEvents ++ leaveEvents 0,
      sound e = true := by
    rw [← List.all_eq_true]
    decide +kernel
  have hstart : ¬ Starting s.main.rest := by
    rw [starting_iff (phaseInv_run hrun)]
    decide +kernel
  refine ⟨s, hrun.restrict fun e he a => newestHealthy_of_sound (hsound e he), hlen, ?_⟩
  exact (sending_tells_truth (hrun.restrict fun e he a => newestHealthy_of_sound (hsound e he)) hstart
    (of_decide_eq_true hnone)).1

/-- **A sender that fails leaves the flag at 1**: after its `socket` has failed no sender is active, and a
    START is answered by `Already Sending`. -/
theorem failed_sender_leaves_flag :
    (∃ s, Run (Restrict StartLegal Step) (init emptyConfig [] [])
      (boot ++ order .start startEvents ++ failEvents 0) s ∧
      ¬ Starting s.main.rest ∧ NoneActive s ∧ s.sending = true) ∧
    ∃ s, Run Step (init emptyConfig [] [])
      (boot ++ order .start startEvents ++ failEvents 0 ++ order .start refusedEvents) s ∧
      NoneActive s ∧ s.senders.length = 1 := by
  constructor
  · have hexec : (execs (guarded StartLegal exec) (init emptyConfig [] [])
        (boot ++ order .start startEvents ++ failEvents 0)).map
        (fun s => (s.sending, decide (NoneActive s))) = some (true, true) := by
      decide +kernel
    obtain ⟨s, hrun, hfin⟩ := Run.exists_of_execs_guarded hexec
    obtain ⟨hsend, hnone⟩ := Prod.mk.inj hfin
    have hstart : ¬ Starting s.main.rest := by
      rw [starting_iff (phaseInv_run hrun.of_restrict)]
      decide +kernel
    exact ⟨s, hrun, hstart, of_decide_eq_true hnone, hsend⟩
  · have hexec : (execs exec (init emptyConfig [] [])
        (boot ++ order .start startEvents ++ failEvents 0 ++ order .start refusedEvents)).map
        (fun s => (s.senders.length, decide (NoneActive s))) = some (1, true) := by
      decide +kernel
    obtain ⟨s, hrun, hfin⟩ := Run.exists_of_execs hexec
    obtain ⟨hlen, hnone⟩ := Prod.mk.inj hfin
    exact ⟨s, hrun, of_decide_eq_true hnone, hlen⟩

end Daemon

end IOSwitch
