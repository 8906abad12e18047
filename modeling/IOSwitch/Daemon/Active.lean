import IOSwitch.Daemon.OneBit

/-!
# `Daemon.Active` — how many senders are active

`start` raises the flag in one critical section and creates the sender after it; between the two it makes only
its `unlock` and a `printf` (`startContract`). So a sender is created right after each raise and at no other
time, and nothing else adds to the active senders: they are at most one in every run whose raises find none
active (`one_active_sender`). A raise that does find one active leads to two (`two_active_of_raise`): the flag
alone does not tell `start` whether the sender it once told to stop has stopped.

## Contents
- `StartPhase`, `startContract`, `phaseInv_run` — from the raised flag to the new sender.
- `LeftInv`, `active_cases` — a sender that has left does not come back.
- `RaiseLegal`, `one_active_sender`, and `two_senders_forward`, a run with START, STOP, START.
-/

namespace IOSwitch

open Lib Server

/-! ## From the raised flag to the new sender -/

/-- Where the main thread is on the way from `lock` over `*sending = 1` and `unlock` to `pthread_create`. -/
inductive StartPhase where
  | idle | locked | raised | released
  deriving DecidableEq

/-- No sender is owed. -/
def StartPhase.rest : StartPhase → Bool
  | idle | locked     => true
  | raised | released => false

@[simp] theorem StartPhase.rest_idle : idle.rest = true := rfl

@[simp] theorem StartPhase.rest_locked : locked.rest = true := rfl

/-- The flag is written under the mutex, and a raised flag is followed by the `unlock` and the creation of a
    sender, with nothing but a `printf` in between. -/
def startContract : Contract serverI StartPhase where
  pre ph c := match c with
    | .setSending _ => ph = .locked
    | .unlockSender => ph = .locked ∨ ph = .raised
    | .printf _     => True
    | .createSender => ph = .released
    | _             => ph.rest = true
  post ph c _ ph' := match c with
    | .lockSender      => ph' = .locked
    | .setSending true => ph' = .raised
    | .unlockSender    => ph' = if ph = .raised then .released else .idle
    | .createSender    => ph' = .idle
    | _                => ph' = ph

/-- Between blocks no sender is owed; the mutex may be held, by a START that found the daemon sending. -/
def AtRest (_ : ServerLoc) (ph : StartPhase) : Prop := ph.rest = true

section Handlers

variable (args : CommandArgs) {ph : StartPhase} (hph : ph.rest = true)
include hph

theorem start_phase : wp startContract (Handler.start args) (fun ph _ => ph.rest = true) ph := by
  refine ⟨hph, ?_⟩
  rintro _ _ rfl
  refine ⟨rfl, ?_⟩
  rintro sending _ rfl
  cases sending with
  | true =>
      refine ⟨trivial, ?_⟩
      rintro _ _ rfl
      rfl
  | false =>
      show wp _ (ask (.setSending true) >>= _) _ _
      simp [startContract]

theorem stop_phase : wp startContract (Handler.stop args) (fun ph _ => ph.rest = true) ph := by
  simp [Handler.stop, startContract, hph]

theorem switchState_phase : wp startContract (Handler.switchState args) (fun ph _ => ph.rest = true) ph := by
  refine ⟨hph, ?_⟩
  rintro _ _ rfl
  refine ⟨rfl, ?_⟩
  rintro sending _ rfl
  cases sending with
  | true =>
      refine ⟨Or.inl rfl, ?_⟩
      rintro _ _ rfl
      show wp _ (Handler.stop args >>= _) _ _
      exact wp_seq (stop_phase args rfl) fun _ _ h => h
  | false =>
      refine ⟨Or.inl rfl, ?_⟩
      rintro _ _ rfl
      show wp _ (Handler.start args >>= _) _ _
      exact wp_seq (start_phase args rfl) fun _ _ h => h

theorem replaceConfig_phase : wp startContract (Handler.replaceConfig args) (fun ph' _ => ph' = ph) ph := by
  unfold Handler.replaceConfig
  split
  · simp [startContract, hph]
  · rfl

theorem reload_phase : wp startContract (Handler.reload args) (fun ph _ => ph.rest = true) ph := by
  refine ⟨hph, ?_⟩
  rintro _ _ rfl
  show wp _ (Handler.replaceConfig args >>= _) _ _
  refine wp_seq (replaceConfig_phase args rfl) ?_
  rintro _ _ rfl
  refine ⟨Or.inl rfl, ?_⟩
  rintro _ _ rfl
  show wp _ (Handler.stop args >>= _) _ _
  refine wp_seq (stop_phase args rfl) ?_
  rintro _ _ hph'
  exact wp_seq (start_phase args hph') fun _ _ h => h

theorem commands_phase : wp startContract (commands args) (fun ph _ => ph.rest = true) ph := by
  unfold commands
  split
  · exact hph
  · exact hph
  · exact start_phase args hph
  · exact stop_phase args hph
  · exact switchState_phase args hph
  · exact reload_phase args hph
  · exact wp_seq (stop_phase args hph) fun _ _ h => h
  · exact ⟨hph, fun r => r.elim⟩

end Handlers

/-- **Every block of the main thread creates the sender it has raised the flag for.** -/
theorem phase_verified : Thread.Verified startContract runServer AtRest := by
  intro l ph hph
  cases l with
  | entry conn args =>
      refine ⟨hph, ?_⟩
      rintro r _ rfl
      show wp _ (if r < 0 then _ else _) _ _
      split <;> exact hph
  | loop conn args =>
      refine wp_mono (wp_neutral (acceptOne_plain conn args) fun c hc => ?_) ?_
      · cases c with
        | lockSender | unlockSender | sending | setSending _ | freeConfig | loadConfig _ | createSender
        | printf _ => exact hc.elim
        | _ => exact ⟨hph, fun _ _ h => h⟩
      · rintro _ l ⟨rfl, -⟩
        exact hph
  | handle conn args => exact wp_seq (commands_phase _ hph) fun _ _ h => h
  | returned code => exact hph

/-- The creation of a sender. -/
def ServerCall.Creates : ServerCall → Prop
  | createSender => True
  | _            => False

/-- A write of the flag. -/
def ServerCall.Writes : ServerCall → Prop
  | setSending _ => True
  | _            => False

/-- The main thread goes on to create a sender before it writes the flag again. -/
def Starting (p : Prog serverI ServerLoc) : Prop := p.MayReach ServerCall.Creates ServerCall.Writes

/-- While a sender is owed the main thread is starting it. -/
theorem starting_of_owed {p : Prog serverI ServerLoc} {ph : StartPhase} (hph : ph.rest = false)
    (h : wp startContract p (fun ph l => AtRest l ph) ph) : Starting p := by
  induction p generalizing ph with
  | ret l => exact absurd (hph.symm.trans h) Bool.false_ne_true
  | call c k ih =>
      obtain ⟨hpre, hpost⟩ := h
      cases c with
      | setSending b =>
          obtain rfl : ph = .locked := hpre
          cases hph
      | unlockSender =>
          rcases hpre with rfl | rfl
          · cases hph
          · exact Or.inr ⟨id, (), ih () rfl (hpost () .released rfl)⟩
      | printf n => exact Or.inr ⟨id, (), ih () hph (hpost () ph rfl)⟩
      | createSender => exact Or.inl trivial
      | _ => exact absurd (hph.symm.trans hpre) Bool.false_ne_true

namespace Daemon

variable {s s' : Daemon} {e : Event} {tr : List Event}

/-- The phase after an event. -/
def phaseAfter (ph : StartPhase) : Event → StartPhase
  | .main (.did .lockSender _)        => .locked
  | .main (.did (.setSending true) _) => .raised
  | .main (.did .unlockSender _)      => if ph = .raised then .released else .idle
  | .main (.did .createSender _)      => .idle
  | _                                 => ph

def phaseOf (tr : List Event) : StartPhase := tr.foldl phaseAfter .idle

@[simp] theorem phaseOf_snoc : phaseOf (tr ++ [e]) = phaseAfter (phaseOf tr) e := by
  rw [phaseOf, List.foldl_append]; rfl

/-- The main thread keeps `startContract`, and holds the mutex while it writes the flag. -/
structure PhaseInv (tr : List Event) (s : Daemon) : Prop where
  main : s.main.Ok startContract AtRest (phaseOf tr)
  held : phaseOf tr = .locked ∨ phaseOf tr = .raised → s.senderMutex = some .main

theorem phaseAfter_did {ph : StartPhase} {c : ServerCall} {r : c.Resp} :
    startContract.post ph c r (phaseAfter ph (.main (.did c r))) := by
  cases c with
  | setSending b => cases b <;> rfl
  | _ => rfl

theorem phaseInv_init (cfg : Config) (conn args : Bytes) : PhaseInv [] (init cfg conn args) :=
  ⟨phase_verified (.entry conn args) .idle rfl, by rintro (h | h) <;> cases h⟩

/-- **Step lemma.** -/
theorem phaseInv_step (hinv : PhaseInv tr s) (h : Step s e s') : PhaseInv (tr ++ [e]) s' := by
  constructor
  · rw [phaseOf_snoc]
    refine mainOk_step h hinv.main ?_ ?_ ?_
    · rintro l rfl hl
      exact phase_verified l _ hl
    · rintro c r rfl -
      exact phaseAfter_did
    · intro hne
      cases e with
      | main a => exact absurd rfl (hne a)
      | _ => rfl
  · rw [phaseOf_snoc]
    intro hph
    by_cases htid : tidOf e = some .main
    · cases e with
      | main a =>
          cases a with
          | jump l =>
              rw [shared_main_jump h]
              exact hinv.held hph
          | did c r =>
              obtain ⟨t, sh, hf, -, -⟩ := step_main h
              have hpre := hinv.main.pre hf
              have hsh := shared_call h
              cases c with
              | lockSender => rw [(Shared.lockSender_eq.mp hsh).2]
              | unlockSender =>
                  -- neither `idle` nor `released` is left with the mutex
                  simp only [phaseAfter] at hph
                  split at hph <;> simp at hph
              | createSender => simp [phaseAfter] at hph
              | setSending b =>
                  rw [← Option.some.inj hsh]
                  exact hinv.held (Or.inl hpre)
              | _ =>
                  rw [(Shared.serverEffect_frame hsh).senderMutex (by simp) (by simp)]
                  exact hinv.held hph
      | _ => cases htid
    · rw [held_frame h htid]
      refine hinv.held ?_
      cases e with
      | main a => exact absurd rfl htid
      | _ => exact hph

theorem phaseInv_run {cfg : Config} {conn args : Bytes} (h : Run Step (init cfg conn args) tr s) :
    PhaseInv tr s :=
  h.history (phaseInv_init cfg conn args) fun _ _ _ _ => phaseInv_step

/-- **A raised flag leads to a new sender**, by steps of the main thread alone. -/
theorem create_follows (p : Prog serverI ServerLoc) {s : Daemon} {tr : List Event} (hinv : PhaseInv tr s)
    (hx : s.exited = false) (hp : s.main.rest = p) (hph : (phaseOf tr).rest = false) :
    ∃ tr' s', Run Step s tr' s' ∧
      s'.senders = s.senders ++ [⟨s.config, .start spawnSenderThread .entry⟩] := by
  induction p generalizing s tr with
  | ret l => exact absurd (hph.symm.trans (hinv.main.of_ret hp)) Bool.false_ne_true
  | call c k ih =>
      have hpre : startContract.pre (phaseOf tr) c := (hinv.main.of_call hp).1
      -- the call that comes next is one of the three that may follow a raise
      cases c with
      | unlockSender =>
          have hraised : phaseOf tr = .raised := by
            rcases hpre with h | h
            · rw [h] at hph; cases hph
            · exact h
          have hstep := can_call (r := ()) hx hp (Shared.unlockSender_eq.mpr ⟨hinv.held (Or.inr hraised), rfl⟩)
          obtain ⟨tr', s', hrun, hs'⟩ := ih () (phaseInv_step hinv hstep) hx rfl
            (by rw [phaseOf_snoc]; simp [phaseAfter, hraised, StartPhase.rest])
          exact ⟨_, s', Run.cons hstep hrun, by rw [hs']; simp [newSenders]⟩
      | printf n =>
          have hstep := can_call (r := ()) hx hp rfl
          obtain ⟨tr', s', hrun, hs'⟩ := ih () (phaseInv_step hinv hstep) hx rfl (by rw [phaseOf_snoc]; exact hph)
          exact ⟨_, s', Run.cons hstep hrun, by rw [hs']; simp [newSenders]⟩
      | createSender => exact ⟨_, _, Run.single (can_call (r := ()) hx hp rfl), rfl⟩
      | setSending b =>
          have hlocked : phaseOf tr = .locked := hpre
          rw [hlocked] at hph
          cases hph
      | _ => exact absurd (hph.symm.trans hpre) Bool.false_ne_true

/-! ## Active senders -/

/-- A sender that has left its loop, or failed before it, stays outside. -/
def LeftInv (s : Daemon) : Prop :=
  ∀ (i : Nat) (d : SenderThread), s.senders[i]? = some d → d.thread.loc.active = false →
    d.thread.rest.Within (fun _ => True) fun l => l.active = false

theorem left_block {l : SenderLoc} (hl : l.active = false) :
    (spawnSenderThread l).Within (fun _ => True) fun l' => l'.active = false := by
  cases l with
  | leave env => exact ⟨trivial, fun _ => rfl⟩
  | exited => rfl
  | entry | loop _ | round _ _ | check _ _ => cases hl

theorem leftInv_step (hinv : LeftInv s) (h : Step s e s') : LeftInv s' := by
  intro i d' hd' hl
  rcases sender_cases h hd' with ⟨hd, -⟩ | ⟨a, d, -, hd, -, hf⟩ | ⟨-, -, rfl⟩
  · exact hinv i d' hd hl
  · cases a with
    | jump l =>
        rw [Thread.jump_start hf] at hl ⊢
        exact left_block hl
    | did c r =>
        rw [Thread.did_loc hf] at hl
        exact (Thread.within_did (hinv i d hd hl) hf).2
  · cases hl

theorem leftInv_run {cfg : Config} {conn args : Bytes} (h : Run Step (init cfg conn args) tr s) : LeftInv s :=
  h.invariant (fun _ _ hd => by simp [init] at hd) fun _ _ _ => leftInv_step

/-- An active sender was active before the step, or it is the one the step created. -/
theorem active_cases (hinv : LeftInv s) (h : Step s e s') {i : Nat} {d' : SenderThread}
    (hd' : s'.senders[i]? = some d') (ha : d'.thread.loc.active = true) :
    (∃ d, s.senders[i]? = some d ∧ d.thread.loc.active = true) ∨
    (i = s.senders.length ∧ e = .main (.did .createSender ())) := by
  rcases sender_cases h hd' with ⟨hd, -⟩ | ⟨a, d, -, hd, -, hf⟩ | ⟨hi, he, -⟩
  · exact Or.inl ⟨d', hd, ha⟩
  · refine Or.inl ⟨d, hd, ?_⟩
    by_contra hleft
    rw [Bool.not_eq_true] at hleft
    cases a with
    | jump l =>
        have hwithin := hinv i d hd hleft
        rw [Thread.jump_rest hf] at hwithin
        rw [Thread.jump_start hf] at ha
        exact absurd (hwithin.symm.trans ha) Bool.false_ne_true
    | did c r =>
        rw [Thread.did_loc hf] at ha
        exact absurd (hleft.symm.trans ha) Bool.false_ne_true
  · exact Or.inr ⟨hi, he⟩

/-- No sender is active. -/
def NoneActive (s : Daemon) : Prop := ∀ d ∈ s.senders, d.thread.loc.active = false

instance (s : Daemon) : Decidable (NoneActive s) := inferInstanceAs (Decidable (∀ d ∈ s.senders, _))

/-- At most one sender is active. -/
def OneActive (s : Daemon) : Prop :=
  ∀ (i j : Nat) (d d' : SenderThread), s.senders[i]? = some d → s.senders[j]? = some d' →
    d.thread.loc.active = true → d'.thread.loc.active = true → i = j

/-- A write of 1 to the flag. -/
def raises : Event → Bool
  | .main (.did (.setSending true) _) => true
  | _                                 => false

/-- The flag is raised only when no sender is active. -/
def RaiseLegal (s : Daemon) (e : Event) : Prop := raises e = true → NoneActive s

instance (s : Daemon) (e : Event) : Decidable (RaiseLegal s e) := inferInstanceAs (Decidable (_ → _))

theorem noneActive_getElem? (h : NoneActive s) {i : Nat} {d : SenderThread} (hd : s.senders[i]? = some d) :
    d.thread.loc.active = false :=
  h d (List.mem_of_getElem? hd)

/-- Without the creation of a sender none becomes active. -/
theorem noneActive_step (hleft : LeftInv s) (h : Step s e s') (he : e ≠ .main (.did .createSender ()))
    (hnone : NoneActive s) : NoneActive s' := by
  intro d' hd'
  obtain ⟨i, hi⟩ := List.getElem?_of_mem hd'
  by_contra ha
  rw [Bool.not_eq_false] at ha
  rcases active_cases hleft h hi ha with ⟨d, hd, hact⟩ | ⟨-, hc⟩
  · exact absurd ((noneActive_getElem? hnone hd).symm.trans hact) Bool.false_ne_true
  · exact he hc

/-- A phase in which a sender is owed was entered by raising the flag, or it was one already. -/
theorem owed_cases {ph : StartPhase} (h : (phaseAfter ph e).rest = false) :
    raises e = true ∨ (ph.rest = false ∧ e ≠ .main (.did .createSender ())) := by
  unfold phaseAfter at h
  split at h
  · cases h
  · exact Or.inl rfl
  · split at h
    · rename_i hph
      exact Or.inr ⟨by rw [hph]; rfl, by simp⟩
    · cases h
  · cases h
  · rename_i hcreate
    exact Or.inr ⟨h, fun he => hcreate () he⟩

/-- **Step lemma.** Legal raises keep the active senders at most one, and at none while one is owed. -/
theorem oneActive_step (hphase : PhaseInv tr s) (hleft : LeftInv s)
    (hinv : ((phaseOf tr).rest = false → NoneActive s) ∧ OneActive s) (hok : RaiseLegal s e) (h : Step s e s') :
    ((phaseOf (tr ++ [e])).rest = false → NoneActive s') ∧ OneActive s' := by
  obtain ⟨howed, hone⟩ := hinv
  constructor
  · rw [phaseOf_snoc]
    intro hph
    rcases owed_cases hph with hr | ⟨hph, hne⟩
    · have hne : e ≠ .main (.did .createSender ()) := by
        rintro rfl
        cases hr
      exact noneActive_step hleft h hne (hok hr)
    · exact noneActive_step hleft h hne (howed hph)
  · -- a sender is created only while one is owed, and then none is active
    have hcreate : e = .main (.did .createSender ()) → NoneActive s := by
      rintro rfl
      obtain ⟨t, sh, hf, -, -⟩ := step_main h
      have hpre : phaseOf tr = .released := hphase.main.pre hf
      exact howed (by rw [hpre]; rfl)
    intro i j d d' hd hd' ha ha'
    rcases active_cases hleft h hd ha with ⟨d₀, hd₀, ha₀⟩ | ⟨hi, he⟩
    · rcases active_cases hleft h hd' ha' with ⟨d₁, hd₁, ha₁⟩ | ⟨-, he⟩
      · exact hone i j d₀ d₁ hd₀ hd₁ ha₀ ha₁
      · exact absurd ((noneActive_getElem? (hcreate he) hd₀).symm.trans ha₀) Bool.false_ne_true
    · rcases active_cases hleft h hd' ha' with ⟨d₁, hd₁, ha₁⟩ | ⟨hj, -⟩
      · exact absurd ((noneActive_getElem? (hcreate he) hd₁).symm.trans ha₁) Bool.false_ne_true
      · rw [hi, hj]

/-- **Run lemma.** -/
theorem oneActive_run {cfg : Config} {conn args : Bytes}
    (h : Run (Restrict RaiseLegal Step) (init cfg conn args) tr s) :
    ((phaseOf tr).rest = false → NoneActive s) ∧ OneActive s := by
  induction h with
  | nil => exact ⟨fun hph => (by cases hph), fun i j d d' hd => by simp [init] at hd⟩
  | snoc hrun hs ih =>
      exact oneActive_step (phaseInv_run hrun.of_restrict) (leftInv_run hrun.of_restrict) ih hs.1 hs.2

/-- A raise that finds a sender active leads to two. -/
theorem two_active_of_raise (hphase : PhaseInv tr s) (h : Step s e s') (hbad : ¬ RaiseLegal s e) :
    ∃ tr' s'', Run Step s' tr' s'' ∧ ¬ OneActive s'' := by
  obtain ⟨hr, hsome⟩ := Classical.not_imp.mp hbad
  have he : e = .main (.did (.setSending true) ()) := by
    unfold raises at hr
    split at hr
    · rfl
    · cases hr
  subst he
  have hsenders : s'.senders = s.senders := by
    obtain ⟨t, sh, -, -, rfl⟩ := step_main h
    simp [newSenders]
  have hx : s'.exited = false := by
    have hrunning := step_running h
    obtain ⟨t, sh, -, -, rfl⟩ := step_main h
    exact hrunning
  -- the main thread goes on alone until it has created its sender
  obtain ⟨tr', s'', hrun, hs''⟩ := create_follows _ (phaseInv_step hphase h) hx rfl (by rw [phaseOf_snoc]; rfl)
  refine ⟨tr', s'', hrun, ?_⟩
  intro hone
  -- the sender that was active, and the new one
  have hex : ∃ d ∈ s.senders, d.thread.loc.active = true := by
    simpa [NoneActive] using hsome
  obtain ⟨d, hmem, ha⟩ := hex
  obtain ⟨i, hi⟩ := List.getElem?_of_mem hmem
  have hlt : i < s.senders.length := (List.getElem?_eq_some_iff.mp hi).1
  rw [hsenders] at hs''
  have hold : s''.senders[i]? = some d := by rw [hs'', List.getElem?_append_left hlt]; exact hi
  have hnew : s''.senders[s.senders.length]? = some ⟨s'.config, .start spawnSenderThread .entry⟩ := by
    rw [hs'', List.getElem?_append_right (Nat.le_refl _)]
    simp
  have := hone i s.senders.length _ _ hold hnew ha rfl
  omega

/-- **At most one active sender.** In every run in which the flag is raised only when no sender is active, at
    most one sender is active in every state; and a raise that finds one active can be followed by a state
    with two. -/
theorem one_active_sender {cfg : Config} {conn args : Bytes}
    (h : Run (Restrict RaiseLegal Step) (init cfg conn args) tr s) :
    OneActive s ∧ ∀ e s', Step s e s' → ¬ RaiseLegal s e → ∃ tr' s'', Run Step s' tr' s'' ∧ ¬ OneActive s'' :=
  ⟨(oneActive_run h).2, fun _ _ hs hbad => two_active_of_raise (phaseInv_run h.of_restrict) hs hbad⟩

/-- A sender that fails before the next START. -/
theorem one_active_sender_restart :
    ∃ s, Run (Restrict RaiseLegal Step) (init emptyConfig [] [])
      (boot ++ order .start startEvents ++ failEvents 0 ++ order .stop stopEvents ++ order .start startEvents) s ∧
      s.senders.length = 2 ∧ OneActive s := by
  have hexec : (execs (guarded RaiseLegal exec) (init emptyConfig [] [])
      (boot ++ order .start startEvents ++ failEvents 0 ++ order .stop stopEvents ++
        order .start startEvents)).map (·.senders.length) = some 2 := by
    decide +kernel
  obtain ⟨s, hrun, hlen⟩ := Run.exists_of_execs_guarded hexec
  exact ⟨s, hrun, hlen, (one_active_sender hrun).1⟩

/-- **Two senders in their loops at once**, after START, STOP, START: the second START raises the flag before
    the first sender looks at it. -/
theorem two_senders_forward :
    ∃ s, Run (Restrict StartLegal Step) (init emptyConfig [] [])
      (boot ++ order .start startEvents ++ joinEvents 0 ++ order .stop stopEvents ++
        order .start startEvents ++ joinEvents 1) s ∧
      s.sending = true ∧ s.senders.map (·.thread.loc.inLoop) = [true, true] ∧ ¬ OneActive s := by
  have hexec : (execs (guarded StartLegal exec) (init emptyConfig [] [])
      (boot ++ order .start startEvents ++ joinEvents 0 ++ order .stop stopEvents ++
        order .start startEvents ++ joinEvents 1)).map
      (fun s => (s.sending, s.senders.map (·.thread.loc.inLoop), s.senders.map (·.thread.loc.active))) =
      some (true, [true, true], [true, true]) := by
    decide +kernel
  obtain ⟨s, hrun, hfin⟩ := Run.exists_of_execs_guarded hexec
  obtain ⟨hsend, hfin⟩ := Prod.mk.inj hfin
  obtain ⟨hloop, hact⟩ := Prod.mk.inj hfin
  refine ⟨s, hrun, hsend, hloop, ?_⟩
  intro hone
  obtain ⟨d, ds, hsenders, ha, hact⟩ := List.map_eq_cons_iff.mp hact
  obtain ⟨d', ds', rfl, ha', -⟩ := List.map_eq_cons_iff.mp hact
  have := hone 0 1 d d' (by rw [hsenders]; rfl) (by rw [hsenders]; rfl) ha ha'
  omega

end Daemon

end IOSwitch
