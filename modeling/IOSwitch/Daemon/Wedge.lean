import IOSwitch.Daemon.OneBit

/-!
# `Daemon.Wedge` — what a refused START costs

A START that finds the daemon sending returns with the sender mutex held, and nobody gives it back. `wedgeContract` has
the main thread keep the mutex from then on, so that in every run the mutex is the main thread's between handlers iff
a START was refused (`held_iff_refused`). What is left of such a daemon is said by `wedged`: no thread takes the mutex
again, so that the flag stays 1, the config and the senders stay what they are, no later handler that locks returns,
a KILL included, and every sender polls its devices once more at most.

## Contents
- `wedgeContract`, `wedge_verified` — the main thread.
- `pollContract`, `poll_verified` — a sender locks between two polls.
- `WedgeInv`, `held_iff_refused`, `Wedged`, `wedged`.
-/

namespace IOSwitch

open Lib Server Sender

/-! ## The main thread -/

/-- Whether the main thread holds the sender mutex, the flag, and whether a START was refused. -/
structure WedgeView where
  held    : Bool
  sending : Bool
  refused : Bool

/-- A START is refused under the mutex, with the flag at 1. From then on the mutex is not given back, and neither the
    flag nor the config is written and no sender is created. -/
def wedgeContract : Contract serverI WedgeView where
  pre g c := match c with
    | .unlockSender => g.held = true ∧ g.refused = false
    | .setSending _ | .freeConfig | .loadConfig _ | .createSender => g.refused = false
    | .printf .alreadySending => g.held = true ∧ g.sending = true ∧ g.refused = false
    | _ => True
  post g c r g' := match c, r with
    | .lockSender, _   => g.held = false ∧ g' = { g with held := true }
    | .unlockSender, _ => g' = { g with held := false }
    | .sending, b      => b = g.sending ∧ g' = g
    | .setSending b, _ => g' = { g with sending := b }
    | .printf .alreadySending, _ => g' = { g with refused := true }
    | _, _             => g' = g

/-- Between handlers the mutex is held iff a START was refused, and a KILL has returned only if none was. -/
def Kept (l : ServerLoc) (g : WedgeView) : Prop := g.held = g.refused ∧ (l = .returned 0 → g.refused = false)

section Handlers

variable (args : CommandArgs) {g : WedgeView}

theorem start_keeps (hg : g.held = g.refused) :
    wp wedgeContract (Handler.start args) (fun g r => g.held = g.refused ∧ r ≠ 1) g := by
  refine ⟨trivial, ?_⟩
  rintro _ _ ⟨hfree, rfl⟩
  have hnone : g.refused = false := hg.symm.trans hfree
  refine ⟨trivial, ?_⟩
  rintro sending _ ⟨rfl, rfl⟩
  show wp _ (if g.sending = true then _ else _) _ _
  split
  · rename_i hs
    simp [wedgeContract, hs, hnone]
  · simp [wedgeContract, hnone]

theorem stop_keeps (hg : g.held = g.refused) :
    wp wedgeContract (Handler.stop args) (fun g _ => g.held = g.refused ∧ g.refused = false) g := by
  refine ⟨trivial, ?_⟩
  rintro _ _ ⟨hfree, rfl⟩
  have hnone : g.refused = false := hg.symm.trans hfree
  refine ⟨hnone, ?_⟩
  rintro _ _ rfl
  refine ⟨⟨rfl, hnone⟩, ?_⟩
  rintro _ _ rfl
  exact ⟨hnone.symm, hnone⟩

theorem switchState_keeps (hg : g.held = g.refused) :
    wp wedgeContract (Handler.switchState args) (fun g r => g.held = g.refused ∧ r ≠ 1) g := by
  refine ⟨trivial, ?_⟩
  rintro _ _ ⟨hfree, rfl⟩
  have hnone : g.refused = false := hg.symm.trans hfree
  refine ⟨trivial, ?_⟩
  rintro sending _ ⟨rfl, rfl⟩
  show wp _ (if g.sending = true then _ else _) _ _
  split
  · refine ⟨⟨rfl, hnone⟩, ?_⟩
    rintro _ _ rfl
    show wp _ (Handler.stop args >>= _) _ _
    refine wp_seq (stop_keeps args hnone.symm) ?_
    rintro g _ ⟨hg, -⟩
    exact ⟨hg, by decide⟩
  · refine ⟨⟨rfl, hnone⟩, ?_⟩
    rintro _ _ rfl
    show wp _ (Handler.start args >>= _) _ _
    refine wp_seq (start_keeps args hnone.symm) ?_
    rintro g _ ⟨hg, -⟩
    exact ⟨hg, by decide⟩

theorem replaceConfig_keeps (hg : g.refused = false) :
    wp wedgeContract (Handler.replaceConfig args) (fun g' _ => g' = g) g := by
  unfold Handler.replaceConfig
  split <;> simp [wedgeContract, hg]

theorem reload_keeps (hg : g.held = g.refused) :
    wp wedgeContract (Handler.reload args) (fun g r => g.held = g.refused ∧ r ≠ 1) g := by
  refine ⟨trivial, ?_⟩
  rintro _ _ ⟨hfree, rfl⟩
  have hnone : g.refused = false := hg.symm.trans hfree
  show wp _ (Handler.replaceConfig args >>= _) _ _
  refine wp_seq (replaceConfig_keeps args hnone) ?_
  rintro _ _ rfl
  refine ⟨⟨rfl, hnone⟩, ?_⟩
  rintro _ _ rfl
  show wp _ (Handler.stop args >>= _) _ _
  refine wp_seq (stop_keeps args hnone.symm) ?_
  rintro g _ ⟨hg, -⟩
  refine wp_seq (start_keeps args hg) ?_
  rintro g _ ⟨hg, -⟩
  exact ⟨hg, by decide⟩

/-- A handler ends with the mutex held iff a START was refused. -/
theorem commands_keeps (hg : g.held = g.refused) :
    wp wedgeContract (commands args) (fun g r => g.held = g.refused ∧ (r = 1 → g.refused = false)) g := by
  have hplain : ∀ {p : Prog serverI Int}, wp wedgeContract p (fun g r => g.held = g.refused ∧ r ≠ 1) g →
      wp wedgeContract p (fun g r => g.held = g.refused ∧ (r = 1 → g.refused = false)) g := by
    intro p hp
    exact wp_mono hp fun _ _ h => ⟨h.1, fun hr => absurd hr h.2⟩
  unfold commands
  split
  · exact ⟨hg, fun h => absurd h (by decide)⟩
  · exact ⟨hg, fun h => absurd h (by decide)⟩
  · exact hplain (start_keeps args hg)
  · refine wp_mono (stop_keeps args hg) fun _ _ h => ⟨h.1, fun _ => h.2⟩
  · exact hplain (switchState_keeps args hg)
  · exact hplain (reload_keeps args hg)
  · exact wp_seq (stop_keeps args hg) fun _ _ h => ⟨h.1, fun _ => h.2⟩
  · exact ⟨trivial, fun r => r.elim⟩

end Handlers

/-- Plain calls leave the view alone. -/
theorem wedge_plain {g : WedgeView} {c : ServerCall} (hc : c.Plain) :
    wedgeContract.pre g c ∧ ∀ r g', wedgeContract.post g c r g' → g' = g := by
  cases c with
  | wild => exact ⟨trivial, fun r => r.elim⟩
  | lockSender | unlockSender | sending | setSending _ | freeConfig | loadConfig _ | createSender
  | printf _ => exact hc.elim
  | _ => exact ⟨trivial, fun _ _ h => h⟩

theorem wedge_verified : Thread.Verified wedgeContract runServer Kept := by
  intro l g hl
  cases l with
  | entry conn args =>
      refine ⟨trivial, ?_⟩
      rintro r _ rfl
      show wp _ (if r < 0 then _ else _) _ _
      split <;> exact ⟨hl.1, by rintro ⟨⟩⟩
  | loop conn args =>
      refine wp_mono (wp_neutral (acceptOne_plain conn args) fun c hc => wedge_plain hc) ?_
      rintro _ l' ⟨rfl, hl'⟩
      refine ⟨hl.1, ?_⟩
      -- a round of the loop returns with -1 only
      rintro rfl
      exact absurd (show (0 : Int) = -1 from hl') (by decide)
  | handle conn args =>
      refine wp_seq (commands_keeps _ hl.1) ?_
      rintro g r ⟨hg, hr⟩
      show Kept (if r = 1 then _ else _) g
      split
      · exact ⟨hg, fun _ => hr ‹_›⟩
      · exact ⟨hg, by rintro ⟨⟩⟩
  | returned code => exact hl

/-! ## The senders -/

/-- The ghost state is whether the sender has polled since it last took the mutex. -/
def pollContract : Contract senderI Bool where
  pre polled c := match c with
    | .poll _ => polled = false
    | _       => True
  post polled c _ polled' := match c with
    | .poll _ => polled' = true
    | .lock   => polled' = false
    | _       => polled' = polled

/-- The calls of a round behind its poll. -/
def SenderCall.Relays : SenderCall → Prop
  | read _ _ | send _ _ => True
  | _                   => False

theorem forwardReady_relays (devfd : List Int) (revents : List Bool) (dest : Int) (n i : Nat) (packet : InputPacket) :
    (forwardReady devfd revents dest n i packet).Within SenderCall.Relays fun _ => True := by
  induction n generalizing i packet with
  | zero => trivial
  | succ n ih =>
      unfold forwardReady
      split
      · refine ⟨trivial, fun r => ?_⟩
        show Prog.Within _ _ (if r.ret < 0 then _ else _)
        split
        · trivial
        · refine ⟨trivial, fun sent => ?_⟩
          show Prog.Within _ _ (if sent ≤ 0 then _ else _)
          split
          · trivial
          · exact ih _ _
      · exact ih _ _

/-- A round begins with the mutex just given back. -/
def Unpolled : SenderLoc → Bool → Prop
  | .round _ _, polled => polled = false
  | _, _               => True

/-- Between two polls the head of the loop takes the mutex. -/
theorem poll_verified : Thread.Verified pollContract spawnSenderThread Unpolled := by
  intro l polled hl
  cases l with
  | entry =>
      have hsetup : wp pollContract setup (fun _ l => True ∧ l.afterSetup) polled := by
        refine wp_keeps setup_silent (fun g c _ hc => ?_) trivial
        cases c with
        | poll _ => exact absurd trivial hc
        | _ => exact ⟨trivial, fun _ _ _ => trivial⟩
      refine wp_mono hsetup ?_
      rintro _ l ⟨-, hl⟩
      cases l with
      | round env k => exact hl.elim
      | _ => trivial
  | loop env => simp [spawnSenderThread, pollContract, Unpolled]
  | round env k =>
      obtain rfl : polled = false := hl
      refine wp_seq (P := fun _ _ => True) ⟨rfl, ?_⟩ fun _ _ _ => trivial
      rintro p _ rfl
      show wp _ (if p.ret < 0 then _ else _) _ _
      split
      · trivial
      · refine wp_mono (wp_neutral (forwardReady_relays _ _ _ _ _ _) fun c hc => ?_) fun _ _ _ => trivial
        cases c with
        | read _ _ | send _ _ => exact ⟨trivial, fun _ _ h => h⟩
        | _ => exact hc.elim
  | check env connected =>
      refine ⟨trivial, fun _ _ _ => ⟨trivial, fun sending _ _ => ⟨trivial, fun _ polled _ => ?_⟩⟩⟩
      show Unpolled (if _ then _ else _) polled
      split <;> trivial
  | leave env => exact ⟨trivial, fun _ _ _ => trivial⟩
  | exited => trivial

/-! ## Runs -/

namespace Daemon

variable {s s' : Daemon} {e : Event} {tr tr' : List Event}

/-- `start` prints `Already Sending`. -/
def refuses : Event → Bool
  | .main (.did (.printf .alreadySending) _) => true
  | _                                        => false

/-- The sender mutex is taken. -/
def takesSender : Event → Bool
  | .main (.did .lockSender _) => true
  | .sender _ (.did .lock _)   => true
  | _                          => false

/-- Sender `i` polls its devices. -/
def polls (i : Nat) : Event → Bool
  | .sender j (.did (.poll _) _) => j = i
  | _                            => false

/-- Whether sender `i` has polled since it last took the mutex, after an event. -/
def polledAfter (i : Nat) (polled : Bool) : Event → Bool
  | .sender j (.did (.poll _) _) => if j = i then true else polled
  | .sender j (.did .lock _)     => if j = i then false else polled
  | _                            => polled

def wedgeView (tr : List Event) (s : Daemon) : WedgeView where
  held    := s.senderMutex = some .main
  sending := s.sending
  refused := tr.any refuses

structure WedgeInv (tr : List Event) (s : Daemon) : Prop where
  main    : s.main.Ok wedgeContract Kept (wedgeView tr s)
  plain   : s.main.loc.handling = false → s.main.rest.Within ServerCall.Plain fun _ => True
  settled : s.main.loc.handling = false → Kept s.main.loc (wedgeView tr s)
  stuck   : tr.any refuses = true → s.senderMutex = some .main ∧ s.sending = true
  senders : ∀ (i : Nat) (d : SenderThread), s.senders[i]? = some d →
    d.thread.Ok pollContract Unpolled (tr.foldl (polledAfter i) false)

/-- No block but a handler makes other calls. -/
theorem block_plain {l : ServerLoc} (hl : l.handling = false) :
    (runServer l).Within ServerCall.Plain fun _ => True := by
  cases l with
  | entry conn args =>
      refine ⟨trivial, fun r => ?_⟩
      show Prog.Within _ _ (if r < 0 then _ else _)
      split <;> trivial
  | loop conn args => exact (acceptOne_plain conn args).mono (fun _ h => h) fun _ _ => trivial
  | handle conn args => cases hl
  | returned code => trivial

theorem any_snoc (tr : List Event) (e : Event) : (tr ++ [e]).any refuses = (tr.any refuses || refuses e) := by
  simp [List.any_append]

/-- Only the main thread changes the view. -/
theorem wedgeView_frame (h : Step s e s') (he : ∀ a, e ≠ .main a) : wedgeView (tr ++ [e]) s' = wedgeView tr s := by
  have hrefuses : refuses e = false := by
    cases e with
    | main a => exact absurd rfl (he a)
    | _ => rfl
  have htid : tidOf e ≠ some .main := by
    cases e with
    | main a => exact absurd rfl (he a)
    | _ => simp [tidOf]
  simp only [wedgeView, held_frame h htid, sending_frame h fun b => he _, any_snoc, hrefuses, Bool.or_false]

theorem wedgeView_jump {l : ServerLoc} (h : Step s (.main (.jump l)) s') :
    wedgeView (tr ++ [.main (.jump l)]) s' = wedgeView tr s := by
  have hsh := shared_main_jump h
  simp only [wedgeView, any_snoc, refuses, Bool.or_false, hsh]

/-- A call of the main thread changes it as the contract says. -/
theorem wedgeView_did {c : ServerCall} {r : c.Resp} (h : Step s (.main (.did c r)) s') :
    wedgeContract.post (wedgeView tr s) c r (wedgeView (tr ++ [.main (.did c r)]) s') := by
  have hsh := shared_call h
  unfold wedgeView
  rw [any_snoc]
  cases c with
  | lockSender =>
      obtain ⟨hfree, hs⟩ := Shared.lockSender_eq.mp hsh
      simp [wedgeContract, refuses, hs, hfree]
  | unlockSender => simp [wedgeContract, refuses, (Shared.unlockSender_eq.mp hsh).2]
  | sending =>
      obtain ⟨hb, hs⟩ := Shared.check_eq.mp hsh
      exact ⟨by simpa using hb, by simp [refuses, hs]⟩
  | setSending b => simp [wedgeContract, refuses, ← Option.some.inj hsh]
  | printf n => cases n <;> simp [wedgeContract, refuses, ← Option.some.inj hsh]
  | freeConfig | loadConfig _ | createSender => simp [wedgeContract, refuses, ← Option.some.inj hsh]
  | wild => exact r.elim
  | _ =>
      have hs := Shared.serverEffect_plain hsh trivial
      simp only [wedgeContract, refuses, Bool.or_false]
      rw [hs]

theorem polled_frame {i : Nat} (hne : ∀ a, e ≠ .sender i a) :
    (tr ++ [e]).foldl (polledAfter i) false = tr.foldl (polledAfter i) false := by
  rw [List.foldl_append, List.foldl_cons, List.foldl_nil]
  unfold polledAfter
  split
  · next j _ _ => exact if_neg (by rintro rfl; exact hne _ rfl)
  · next j _ => exact if_neg (by rintro rfl; exact hne _ rfl)
  · rfl

/-- A mutex that is kept stays so, and so does the flag. -/
theorem stuck_step (hinv : WedgeInv tr s) (href : tr.any refuses = true) (h : Step s e s') :
    s'.senderMutex = some .main ∧ s'.sending = true := by
  obtain ⟨hheld, hsending⟩ := hinv.stuck href
  by_cases hmain : ∃ c r, e = .main (.did c r)
  · obtain ⟨c, r, rfl⟩ := hmain
    obtain ⟨t, sh, hf, -, -⟩ := step_main h
    have hpre := hinv.main.pre hf
    have hsh := shared_call h
    cases c with
    | lockSender => exact absurd hheld (by simp [(Shared.lockSender_eq.mp hsh).1])
    | unlockSender => exact absurd (href.symm.trans hpre.2) (by decide)
    | setSending b => exact absurd (href.symm.trans hpre) (by decide)
    | _ =>
        have hframe := Shared.serverEffect_frame hsh
        exact ⟨(hframe.senderMutex (by simp) (by simp)).trans hheld, (hframe.sending (by simp)).trans hsending⟩
  · have hsame : s'.sending = s.sending := sending_frame h fun b he => hmain ⟨_, _, he⟩
    refine ⟨?_, hsame.trans hsending⟩
    cases e with
    | main a =>
        cases a with
        | jump l =>
            rw [shared_main_jump h]
            exact hheld
        | did c r => exact absurd ⟨c, r, rfl⟩ hmain
    | _ => exact (held_frame h (by simp [tidOf])).mpr hheld

theorem wedgeInv_init (cfg : Config) (conn args : Bytes) : WedgeInv [] (init cfg conn args) where
  main    := Thread.ok_start wedge_verified ⟨rfl, fun _ => rfl⟩
  plain   := fun _ => block_plain (l := .entry conn args) rfl
  settled := fun _ => ⟨rfl, fun _ => rfl⟩
  stuck   := fun h => by cases h
  senders := fun _ _ h => by simp [init] at h

/-- **Step lemma.** -/
theorem wedgeInv_step (hinv : WedgeInv tr s) (h : Step s e s') : WedgeInv (tr ++ [e]) s' := by
  constructor
  · refine mainOk_step h hinv.main ?_ ?_ fun he => wedgeView_frame h he
    · rintro l rfl hl
      rw [wedgeView_jump h]
      exact wedge_verified l _ hl
    · rintro c r rfl -
      exact wedgeView_did h
  · intro hidle
    rcases main_cases h with ⟨hm, -⟩ | ⟨a, rfl, hf⟩
    · rw [hm] at hidle ⊢
      exact hinv.plain hidle
    · cases a with
      | jump l =>
          rw [Thread.jump_start hf] at hidle ⊢
          exact block_plain hidle
      | did c r =>
          rw [Thread.did_loc hf] at hidle
          exact (Thread.within_did (hinv.plain hidle) hf).2
  · intro hidle
    rcases main_cases h with ⟨hm, he⟩ | ⟨a, rfl, hf⟩
    · rw [hm] at hidle ⊢
      rw [wedgeView_frame h he]
      exact hinv.settled hidle
    · cases a with
      | jump l =>
          have hl := hinv.main.label hf
          rw [wedgeView_jump h, Thread.jump_start hf]
          exact hl
      | did c r =>
          rw [Thread.did_loc hf] at hidle ⊢
          have hplain := (Thread.within_did (hinv.plain hidle) hf).1
          rw [(wedge_plain hplain).2 r _ (wedgeView_did h)]
          exact hinv.settled hidle
  · intro href
    by_cases hbefore : tr.any refuses = true
    · exact stuck_step hinv hbefore h
    · -- the START is refused in this step
      have hrefuses : refuses e = true := by simpa [any_snoc, hbefore] using href
      unfold refuses at hrefuses
      split at hrefuses
      · obtain ⟨t, sh, hf, -, -⟩ := step_main h
        obtain ⟨hheld, hsending, -⟩ := hinv.main.pre hf
        rw [← Option.some.inj (shared_call h)]
        exact ⟨of_decide_eq_true hheld, hsending⟩
      · cases hrefuses
  · refine sendersOk_step (g := fun i => tr.foldl (polledAfter i) false) h hinv.senders ?_ ?_ ?_ ?_
    · rintro i l rfl hl
      have hsame : (tr ++ [Event.sender i (.jump l)]).foldl (polledAfter i) false = tr.foldl (polledAfter i) false := by
        rw [List.foldl_append]
        rfl
      rw [hsame]
      exact poll_verified l _ hl
    · rintro i c r rfl -
      rw [List.foldl_append, List.foldl_cons, List.foldl_nil]
      cases c <;> simp [pollContract, polledAfter]
    · rintro rfl
      exact poll_verified .entry _ trivial
    · intro i _ hne
      exact polled_frame hne

theorem wedgeInv_run {cfg : Config} {conn args : Bytes} (h : Run Step (init cfg conn args) tr s) : WedgeInv tr s :=
  h.history (wedgeInv_init cfg conn args) fun _ _ _ _ => wedgeInv_step

/-- Between handlers the main thread holds the mutex iff a START was refused. -/
theorem held_iff_refused {cfg : Config} {conn args : Bytes} (h : Run Step (init cfg conn args) tr s)
    (hidle : s.main.loc.handling = false) : s.senderMutex = some .main ↔ tr.any refuses = true := by
  have hkept : decide (s.senderMutex = some .main) = tr.any refuses := ((wedgeInv_run h).settled hidle).1
  rw [← hkept]
  exact decide_eq_true_iff.symm

/-! ## A daemon that has refused a START -/

end Daemon

/-- The commands whose handlers take the sender mutex. -/
def CommandType.locks : CommandType → Bool
  | start | stop | switch | reload | kill => true
  | none | list | other _                 => false

/-- The first call of such a handler is for the mutex. -/
theorem commands_lock {args : CommandArgs} (h : args.type.locks = true) :
    ∃ k, commands args = .call .lockSender k := by
  unfold commands
  cases ht : args.type with
  | none | list | other _ =>
      rw [ht] at h
      cases h
  | _ => exact ⟨_, rfl⟩

theorem handle_next {conn args : Bytes} (h : (CommandArgs.ofMem args).type.locks = true) :
    (runServer (.handle conn args)).next = some .lockSender := by
  obtain ⟨k, hk⟩ := commands_lock h
  rw [runServer, hk]
  rfl

namespace Daemon

variable {s s' : Daemon} {e : Event} {tr tr' : List Event}

/-- What the events `tr` have made of a daemon that had refused a START in state `s`. -/
structure Wedged (s : Daemon) (tr : List Event) (s' : Daemon) : Prop where
  mutex   : s'.senderMutex = some .main
  sending : s'.sending = true
  config  : s'.config = s.config ∧ s'.configs = s.configs
  senders : s'.senders.length = s.senders.length
  taken   : ∀ e ∈ tr, takesSender e = false ∧ refuses e = false
  waits   : ∀ conn args, .main (.jump (.handle conn args)) ∈ tr → (CommandArgs.ofMem args).type.locks = true →
    s'.main.loc = .handle conn args ∧ s'.main.rest.next = some .lockSender
  alive   : s'.main.loc ≠ .returned 0
  polls   : ∀ i, tr.countP (polls i) ≤ 1

/-- No step takes the mutex or refuses another START. -/
theorem wedged_takes (hinv : WedgeInv tr s) (href : tr.any refuses = true) (h : Step s e s') :
    takesSender e = false ∧ refuses e = false := by
  have hheld := (hinv.stuck href).1
  refine ⟨?_, ?_⟩
  · unfold takesSender
    split
    · exact absurd hheld (by simp [(Shared.lockSender_eq.mp (shared_call h)).1])
    · obtain ⟨d, -, hsh⟩ := shared_sender_call h
      exact absurd hheld (by simp [(Shared.lockSender_eq.mp hsh).1])
    · rfl
  · unfold refuses
    split
    · obtain ⟨t, sh, hf, -, -⟩ := step_main h
      exact absurd (href.symm.trans (hinv.main.pre hf).2.2) (by decide)
    · rfl

/-- No step writes the config or creates a sender. -/
theorem wedged_frame (hinv : WedgeInv tr s) (href : tr.any refuses = true) (h : Step s e s') :
    (s'.config = s.config ∧ s'.configs = s.configs) ∧ s'.senders.length = s.senders.length := by
  -- the three calls are not allowed any more
  have hnot : ∀ c r, e = .main (.did c r) → wedgeContract.pre (wedgeView tr s) c := by
    rintro c r rfl
    obtain ⟨t, sh, hf, -, -⟩ := step_main h
    exact hinv.main.pre hf
  have hfalse : ¬ (wedgeView tr s).refused = false := by
    show ¬ tr.any refuses = false
    rw [href]
    decide
  refine ⟨config_frame h ?_ ?_, senders_length h ?_⟩
  · rintro rfl
    exact hfalse (hnot _ _ rfl)
  · rintro path c rfl
    exact hfalse (hnot _ _ rfl)
  · rintro rfl
    exact hfalse (hnot _ _ rfl)

/-- A handler that waits for the mutex goes on waiting. -/
theorem waits_step (hheld : s.senderMutex = some .main) (hwaits : s.main.rest.next = some .lockSender)
    (h : Step s e s') : s'.main = s.main := by
  rcases main_cases h with ⟨hm, -⟩ | ⟨a, rfl, hf⟩
  · exact hm
  · obtain ⟨k, hk⟩ := Prog.next_eq hwaits
    cases a with
    | jump l =>
        rw [Thread.jump_rest hf] at hk
        cases hk
    | did c r =>
        obtain ⟨k', hk', -⟩ := (Thread.fire_did (I := serverI)).mp hf
        rw [hk] at hk'
        obtain ⟨rfl, -⟩ := Prog.call.inj hk'
        exact absurd hheld (by simp [(Shared.lockSender_eq.mp (shared_call h)).1])

/-- A sender that does not take the mutex does not poll twice. -/
theorem polls_step {n i : Nat} (hinv : WedgeInv tr s) (hn : n ≤ if tr.foldl (polledAfter i) false then 1 else 0)
    (htakes : takesSender e = false) (h : Step s e s') :
    n + (if polls i e then 1 else 0) ≤ if (tr ++ [e]).foldl (polledAfter i) false then 1 else 0 := by
  by_cases hpolls : polls i e = true
  · unfold polls at hpolls
    split at hpolls
    · next j fds r =>
      obtain rfl : j = i := of_decide_eq_true hpolls
      obtain ⟨d, t, sh, hd, hf, -, -⟩ := step_sender h
      have hfirst : tr.foldl (polledAfter j) false = false := (hinv.senders j d hd).pre hf
      rw [hfirst] at hn
      have hafter : (tr ++ [senderCall j (.poll fds) r]).foldl (polledAfter j) false = true := by
        rw [List.foldl_append, List.foldl_cons, List.foldl_nil]
        exact if_pos rfl
      rw [hafter]
      simp only [Bool.false_eq_true, ↓reduceIte, Nat.le_zero_eq] at hn
      simp [polls, hn]
    · cases hpolls
  · have hsame : (tr ++ [e]).foldl (polledAfter i) false = tr.foldl (polledAfter i) false := by
      rw [List.foldl_append, List.foldl_cons, List.foldl_nil]
      unfold polledAfter
      split
      · next j fds r =>
        refine if_neg ?_
        rintro rfl
        exact hpolls (decide_eq_true rfl)
      · cases htakes
      · rfl
    rw [hsame, if_neg hpolls]
    exact hn

theorem polls_le (hinv : ∀ tr' b, Run Step s tr' b → WedgeInv (tr ++ tr') b) (href : tr.any refuses = true)
    (h : Run Step s tr' s') (i : Nat) : tr'.countP (polls i) ≤ if (tr ++ tr').foldl (polledAfter i) false then 1 else 0 := by
  induction h with
  | nil => exact Nat.zero_le _
  | @snoc tr' e a b hrun hs ih =>
      have htakes := (wedged_takes (hinv tr' a hrun) (by simp [href]) hs).1
      rw [List.countP_append, List.countP_singleton, ← List.append_assoc]
      exact polls_step (hinv tr' a hrun) ih htakes hs

/-- **A daemon that has refused a START is wedged.** From then on, in every run: the main thread keeps the sender
    mutex and no thread takes it again; the flag stays 1, the config what it is, and no sender is created; no START is
    refused again; a command whose handler takes the mutex is never done with, so that no KILL ends the daemon; and no
    sender polls its devices more than once. -/
theorem wedged {cfg : Config} {conn args : Bytes} (h : Run Step (init cfg conn args) tr s)
    (href : tr.any refuses = true) (h' : Run Step s tr' s') : Wedged s tr' s' := by
  have hrefused : ∀ tr', (tr ++ tr').any refuses = true := fun tr' => by simp [List.any_append, href]
  have hinv : ∀ tr' b, Run Step s tr' b → WedgeInv (tr ++ tr') b := fun _ _ hrun => wedgeInv_run (h.append hrun)
  have hstuck : ∀ tr' b, Run Step s tr' b → b.senderMutex = some .main ∧ b.sending = true :=
    fun tr' b hrun => (hinv tr' b hrun).stuck (hrefused tr')
  have halive : ∀ tr' b, Run Step s tr' b → b.main.loc ≠ .returned 0 := by
    intro tr' b hrun hret
    have hidle : b.main.loc.handling = false := by rw [hret]; rfl
    have hnone := ((hinv tr' b hrun).settled hidle).2 hret
    exact absurd ((hrefused tr').symm.trans hnone) (by decide)
  have hpolls : ∀ tr' b, Run Step s tr' b → ∀ i, tr'.countP (polls i) ≤ 1 := by
    intro tr' b hrun i
    refine Nat.le_trans (polls_le hinv href hrun i) ?_
    split <;> decide
  induction h' with
  | nil =>
      obtain ⟨hmutex, hsending⟩ := hstuck [] s .nil
      exact ⟨hmutex, hsending, ⟨rfl, rfl⟩, rfl, by simp, by simp, halive [] s .nil, hpolls [] s .nil⟩
  | @snoc tr' e a b hrun hs ih =>
      have hrun' := hrun.snoc hs
      obtain ⟨hmutex, hsending⟩ := hstuck _ b hrun'
      obtain ⟨⟨hconfig, hconfigs⟩, hsenders⟩ := wedged_frame (hinv tr' a hrun) (hrefused tr') hs
      refine ⟨hmutex, hsending, ⟨hconfig.trans ih.config.1, hconfigs.trans ih.config.2⟩, hsenders.trans ih.senders,
        ?_, ?_, halive _ b hrun', hpolls _ b hrun'⟩
      · intro e' he'
        rcases List.mem_append.mp he' with he' | he'
        · exact ih.taken e' he'
        · obtain rfl := List.mem_singleton.mp he'
          exact wedged_takes (hinv tr' a hrun) (hrefused tr') hs
      · intro conn args hmem hlocks
        rcases List.mem_append.mp hmem with hmem | hmem
        · obtain ⟨hloc, hnext⟩ := ih.waits conn args hmem hlocks
          rw [waits_step ih.mutex hnext hs]
          exact ⟨hloc, hnext⟩
        · -- the handler is entered in this step
          obtain rfl := List.mem_singleton.mp hmem
          obtain ⟨t, sh, hf, -, rfl⟩ := step_main hs
          rw [Thread.jump_start hf]
          exact ⟨rfl, handle_next hlocks⟩

/-- A second START, and then a KILL. -/
theorem wedged_kill :
    ∃ s s', Run Step (init emptyConfig [] []) (boot ++ order .start startEvents ++ order .start refusedEvents) s ∧
      Run Step s (receive (plainArgs .kill) ++ [.main (.jump (.handle commandConn (plainArgs .kill)))]) s' ∧
      s'.main.rest.next = some .lockSender ∧ s'.senderMutex = some .main := by
  have hexec : (execs exec (init emptyConfig [] []) (boot ++ order .start startEvents ++ order .start refusedEvents)).map
      (fun s => (s.main.loc.handling, (execs exec s
        (receive (plainArgs .kill) ++ [.main (.jump (.handle commandConn (plainArgs .kill)))])).isSome)) =
      some (false, true) := by
    decide +kernel
  obtain ⟨s, hrun, hfin⟩ := Run.exists_of_execs hexec
  obtain ⟨s', hs'⟩ := Option.isSome_iff_exists.mp (Prod.mk.inj hfin).2
  have href : (boot ++ order .start startEvents ++ order .start refusedEvents).any refuses = true := by decide +kernel
  have hwedged := wedged hrun href (Run.of_execs hs')
  have hlocks : (CommandArgs.ofMem (plainArgs .kill)).type.locks = true := by decide +kernel
  have hmem : Event.main (.jump (.handle commandConn (plainArgs .kill))) ∈
      receive (plainArgs .kill) ++ [.main (.jump (.handle commandConn (plainArgs .kill)))] :=
    List.mem_append_right _ List.mem_cons_self
  obtain ⟨-, hnext⟩ := hwedged.waits commandConn (plainArgs .kill) hmem hlocks
  exact ⟨s, s', hrun, Run.of_execs hs', hnext, hwedged.mutex⟩

end Daemon

end IOSwitch
