import IOSwitch.Daemon.Script

/-!
# `Daemon.Lifetime` — what the senders hold on to

A sender keeps the pointers it was given when it was created: to the config block, to the flag and to the
sender mutex. `reload` frees the config block, and `destroy_server` all of them, and neither looks for senders
that still use them. `Process` is the daemon together with what `main` does after `run_server`; the objects are
safe (`objects_outlive_senders`) as long as each is freed only when no live sender can come to use it.

## Contents
- `Process`, `Process.Step` — the daemon and `destroy_server`.
- `Finished`, `finished_block` — the sender has no more use for an object.
- `freshContract`, `fresh_verified` — a sender is not given a released config.
- `LifeInv`, `objects_outlive_senders`, `use_after_free`.
-/

namespace IOSwitch

open Lib Server Sender

/-! ## The process -/

/-- What `destroy_server` releases. -/
inductive Object where
  | listenerMutex | sending | config | senderMutex | server
  deriving DecidableEq

/-- A statement of `destroy_server`. -/
inductive Teardown where
  | free (o : Object)
  | closeSocket
  deriving DecidableEq

/-- `destroy_server`, statement by statement. -/
def destroyServer : List Teardown :=
  [.free .listenerMutex, .closeSocket, .free .sending, .free .config, .free .senderMutex, .free .server]

/-- The daemon, the statements that `destroy_server` has still to execute, the objects it has released, and
    whether `main` has returned. -/
structure Process where
  daemon : Daemon
  left   : List Teardown
  freed  : List Object
  ended  : Bool

inductive ProcessEvent where
  | daemon (e : Event)
  | teardown (t : Teardown)
  | finish

/-- `run_server` has returned. -/
def ServerLoc.isReturned : ServerLoc → Bool
  | returned _                       => true
  | entry _ _ | loop _ _ | handle _ _ => false

namespace Process

/-- The daemon after `free(server->config)`. -/
def dropConfig (s : Daemon) : Daemon :=
  { s with configs := s.configs.modify s.config fun b => { b with released := true } }

/-- The effect of a statement of `destroy_server`. -/
def tearDown (p : Process) : Teardown → Process
  | .closeSocket  => p
  | .free .config => { p with daemon := dropConfig p.daemon, freed := p.freed ++ [.config] }
  | .free o       => { p with freed := p.freed ++ [o] }

/-- The state after an event, if the event is possible: `destroy_server` runs after `run_server`, while the
    other threads go on, and all end when `main` returns. -/
def exec (p : Process) : ProcessEvent → Option Process
  | .daemon e   => if p.ended then none else (p.daemon.exec e).map fun s => { p with daemon := s }
  | .teardown t =>
      if p.ended || p.daemon.exited || !p.daemon.main.loc.isReturned then none
      else if p.left.head? = some t then some { p.tearDown t with left := p.left.tail } else none
  | .finish     =>
      if p.ended || p.daemon.exited || !p.daemon.main.loc.isReturned || !p.left.isEmpty then none
      else some { p with ended := true }

def Step (p : Process) (e : ProcessEvent) (p' : Process) : Prop := p.exec e = some p'

/-- The process when `run_server` is called. -/
def init (cfg : Config) (conn args : Bytes) : Process := ⟨Daemon.init cfg conn args, destroyServer, [], false⟩

variable {p p' : Process} {e : Event}

theorem step_daemon (h : Step p (.daemon e) p') :
    ∃ s, Daemon.Step p.daemon e s ∧ p' = { p with daemon := s } := by
  simp only [Step, exec] at h
  split at h
  · cases h
  · obtain ⟨s, hs, rfl⟩ := Option.map_eq_some_iff.mp h
    exact ⟨s, hs, rfl⟩

theorem step_teardown {t : Teardown} (h : Step p (.teardown t) p') :
    p.daemon.main.loc.isReturned = true ∧ p' = { p.tearDown t with left := p.left.tail } := by
  simp only [Step, exec] at h
  split at h
  · cases h
  · rename_i hgo
    split at h
    · refine ⟨?_, (Option.some.inj h).symm⟩
      simp only [Bool.or_eq_true, Bool.not_eq_true', not_or, Bool.not_eq_false] at hgo
      exact hgo.2
    · cases h

theorem step_finish (h : Step p .finish p') : p' = { p with ended := true } := by
  simp only [Step, exec] at h
  split at h
  · cases h
  · exact (Option.some.inj h).symm

end Process

/-! ## What a sender uses -/

/-- The object that a call reads or locks. -/
def SenderCall.uses : SenderCall → Option Object
  | lock | unlock => some .senderMutex
  | config        => some .config
  | sending       => some .sending
  | _             => none

/-- From this label on the object is not used. -/
def Object.sparedFrom : Object → SenderLoc → Bool
  | .listenerMutex, _ | .server, _            => true
  | _, .leave _ | _, .exited                  => true
  | .config, .check _ false                   => true
  | .config, _ | .sending, _ | .senderMutex, _ => false

/-- The sender will not use the object again, whatever the answers to its calls. -/
def Finished (o : Object) (t : Thread senderI SenderLoc) : Prop :=
  t.rest.Within (fun c : SenderCall => c.uses ≠ some o) fun l => o.sparedFrom l = true

/-- **A block behind the last use** ends behind it. -/
theorem finished_block {o : Object} {l : SenderLoc} (hl : o.sparedFrom l = true) :
    (spawnSenderThread l).Within (fun c : SenderCall => c.uses ≠ some o) fun l' => o.sparedFrom l' = true := by
  have hstranger : (∀ c : SenderCall, c.uses ≠ some o) → (∀ l', o.sparedFrom l' = true) →
      (spawnSenderThread l).Within (fun c : SenderCall => c.uses ≠ some o) fun l' => o.sparedFrom l' = true :=
    fun hc hl => (Prog.within_true _).mono (fun c _ => hc c) fun l' _ => hl l'
  cases o with
  | listenerMutex => exact hstranger (by intro c; cases c <;> simp [SenderCall.uses]) fun _ => rfl
  | server => exact hstranger (by intro c; cases c <;> simp [SenderCall.uses]) fun _ => rfl
  | config =>
      cases l with
      | leave env => exact ⟨by simp [SenderCall.uses], fun _ => rfl⟩
      | exited => rfl
      | check env connected =>
          cases connected with
          | true => cases hl
          | false => simp [spawnSenderThread, SenderCall.uses, Object.sparedFrom]
      | _ => cases hl
  | sending | senderMutex =>
      cases l with
      | leave env => exact ⟨by simp [SenderCall.uses], fun _ => rfl⟩
      | exited => rfl
      | _ => cases hl

/-! ## The config that a sender is given -/

/-- The ghost state is whether `server->config` is allocated; a sender is created only while it is. -/
def freshContract : Contract serverI Bool where
  pre fresh c := c = .createSender → fresh = true
  post fresh c r fresh' := match c, r with
    | .freeConfig, _   => fresh' = false
    | .loadConfig _, _ => fresh' = true
    | _, _             => fresh' = fresh

/-- Until `run_server` has returned the config is allocated between blocks. -/
def Fresh (l : ServerLoc) (fresh : Bool) : Prop := l.isReturned = false → fresh = true

section Handlers

variable (args : CommandArgs)

theorem start_fresh : wp freshContract (Handler.start args) (fun fresh _ => fresh = true) true := by
  simp [Handler.start, freshContract]

theorem stop_fresh : wp freshContract (Handler.stop args) (fun fresh _ => fresh = true) true := by
  simp [Handler.stop, freshContract]

theorem switchState_fresh : wp freshContract (Handler.switchState args) (fun fresh _ => fresh = true) true := by
  refine ⟨by simp [freshContract], ?_⟩
  rintro _ _ rfl
  refine ⟨by simp [freshContract], ?_⟩
  rintro sending _ rfl
  cases sending with
  | true =>
      show wp _ (ask .unlockSender >>= fun _ => Handler.stop args >>= _) _ _
      simp [Handler.stop, freshContract]
  | false =>
      show wp _ (ask .unlockSender >>= fun _ => Handler.start args >>= _) _ _
      simp [Handler.start, freshContract]

/-- The block that frees the config loads another. -/
theorem replaceConfig_fresh : wp freshContract (Handler.replaceConfig args) (fun fresh _ => fresh = true) true := by
  unfold Handler.replaceConfig
  split <;> simp [freshContract]

theorem reload_fresh : wp freshContract (Handler.reload args) (fun fresh _ => fresh = true) true := by
  refine ⟨by simp [freshContract], ?_⟩
  rintro _ _ rfl
  show wp _ (Handler.replaceConfig args >>= _) _ _
  apply wp_seq (replaceConfig_fresh args)
  rintro _ _ rfl
  refine ⟨by simp [freshContract], ?_⟩
  rintro _ _ rfl
  show wp _ (Handler.stop args >>= _) _ _
  apply wp_seq (stop_fresh args)
  rintro _ _ rfl
  exact wp_seq (start_fresh args) fun _ _ h => h

theorem commands_fresh : wp freshContract (commands args) (fun fresh _ => fresh = true) true := by
  unfold commands
  split
  · exact rfl
  · exact rfl
  · exact start_fresh args
  · exact stop_fresh args
  · exact switchState_fresh args
  · exact reload_fresh args
  · exact wp_seq (stop_fresh args) fun _ _ h => h
  · exact ⟨by simp [freshContract], fun r => r.elim⟩

end Handlers

/-- **Every block of the main thread** creates senders with an allocated config only. -/
theorem fresh_verified : Thread.Verified freshContract runServer Fresh := by
  intro l fresh hl
  cases l with
  | entry conn args =>
      obtain rfl : fresh = true := hl rfl
      refine ⟨by simp [freshContract], ?_⟩
      rintro r _ rfl
      show wp _ (if r < 0 then _ else _) _ _
      split <;> exact fun _ => rfl
  | loop conn args =>
      obtain rfl : fresh = true := hl rfl
      have hplain : ∀ c : ServerCall, c.Plain →
          freshContract.pre true c ∧ ∀ r fresh, freshContract.post true c r fresh → fresh = true := by
        intro c hc
        cases c with
        | wild => exact ⟨by simp [freshContract], fun r => r.elim⟩
        | lockSender | unlockSender | sending | setSending _ | freeConfig | loadConfig _ | createSender
        | printf _ => exact hc.elim
        | _ => exact ⟨by simp [freshContract], fun _ _ h => h⟩
      apply wp_mono (wp_neutral (acceptOne_plain conn args) hplain)
      rintro _ l' ⟨rfl, -⟩
      exact fun _ => rfl
  | handle conn args =>
      obtain rfl : fresh = true := hl rfl
      apply wp_seq (commands_fresh _)
      rintro _ result rfl
      exact fun _ => rfl
  | returned code => exact fun h => by cases h

namespace Process

variable {p p' : Process} {e : ProcessEvent} {tr : List ProcessEvent}

/-! ## The law of the lifetimes -/

/-- The object has been released; a sender's config is the block it was created with. -/
def Released (p : Process) (d : SenderThread) : Object → Prop
  | .config => ∃ b, p.daemon.configs[d.config]? = some b ∧ b.released = true
  | o       => o ∈ p.freed

/-- No sender is about to read or lock an object that has been released. -/
def Safe (p : Process) : Prop :=
  ∀ d ∈ p.daemon.senders, ∀ c o, d.thread.rest.next = some c → SenderCall.uses c = some o → ¬ Released p d o

/-- An object is freed only when no sender can come to use it any more: `reload` frees the config, and
    `destroy_server` everything. -/
def FreeLegal (p : Process) : ProcessEvent → Prop
  | .daemon (.main (.did .freeConfig _)) =>
      ∀ d ∈ p.daemon.senders, d.config = p.daemon.config → Finished .config d.thread
  | .teardown (.free o) =>
      ∀ d ∈ p.daemon.senders, (o = .config → d.config = p.daemon.config) → Finished o d.thread
  | _ => True

/-- No sender will use what has been released; a sender is created with an allocated config, and none is created
    once `destroy_server` has begun. -/
structure LifeInv (p : Process) : Prop where
  finished : ∀ d ∈ p.daemon.senders, ∀ o, Released p d o → Finished o d.thread
  main     : ∃ fresh, p.daemon.main.Ok freshContract Fresh fresh ∧
    (fresh = true → ∀ b, p.daemon.configs[p.daemon.config]? = some b → b.released = false)
  gone     : p.freed ≠ [] → p.daemon.main.loc.isReturned = true
  stays    : p.daemon.main.loc.isReturned = true → ∃ code, p.daemon.main.rest = .ret (.returned code)

theorem lifeInv_init (cfg : Config) (conn args : Bytes) : LifeInv (init cfg conn args) where
  finished := fun d hd => by simp [init, Daemon.init] at hd
  main := ⟨true, fresh_verified (.entry conn args) true fun _ => rfl, fun _ b hb => by
    obtain rfl : _ = b := Option.some.inj hb
    rfl⟩
  gone := fun h => absurd rfl h
  stays := fun h => by cases h

section Steps

variable {s s' : Daemon} {ev : Event}

/-- A block that is released after a step was so before, unless the step has freed it. -/
theorem block_released (h : Daemon.Step s ev s') {n : Nat} {b' : ConfigBlock} (hb' : s'.configs[n]? = some b')
    (hreleased : b'.released = true) :
    (∃ b, s.configs[n]? = some b ∧ b.released = true) ∨ (ev = .main (.did .freeConfig ()) ∧ n = s.config) := by
  by_cases hfree : ev = .main (.did .freeConfig ())
  · subst hfree
    rw [← Option.some.inj (Daemon.shared_call h), List.getElem?_modify] at hb'
    obtain ⟨b, hb, rfl⟩ := Option.map_eq_some_iff.mp hb'
    by_cases hn : s.config = n
    · exact Or.inr ⟨rfl, hn.symm⟩
    · rw [if_neg hn] at hreleased
      exact Or.inl ⟨b, hb, hreleased⟩
  by_cases hload : ∃ path c, ev = .main (.did (.loadConfig path) c)
  · obtain ⟨path, c, rfl⟩ := hload
    rw [← Option.some.inj (Daemon.shared_call h)] at hb'
    rcases getElem?_append_cases hb' with hb | ⟨-, hb⟩
    · exact Or.inl ⟨b', hb, hreleased⟩
    · -- the block just loaded is allocated
      rw [List.mem_singleton.mp (List.mem_of_getElem? hb)] at hreleased
      cases hreleased
  · rw [(Daemon.config_frame h hfree fun path c he => hload ⟨path, c, he⟩).2] at hb'
    exact Or.inl ⟨b', hb', hreleased⟩

/-- `run_server` returns once. -/
theorem returned_step (hstays : s.main.loc.isReturned = true → ∃ code, s.main.rest = .ret (.returned code))
    (h : Daemon.Step s ev s') :
    (s.main.loc.isReturned = true → s'.main.loc.isReturned = true) ∧
    (s'.main.loc.isReturned = true → ∃ code, s'.main.rest = .ret (.returned code)) := by
  rcases Daemon.main_cases h with ⟨hm, -⟩ | ⟨a, -, hf⟩
  · rw [hm]
    exact ⟨id, hstays⟩
  · cases a with
    | jump l =>
        constructor
        · intro hret
          obtain ⟨code, hr⟩ := hstays hret
          rw [Thread.jump_rest hf] at hr
          injection hr with hl
          rw [Thread.jump_start hf, hl]
          rfl
        · rw [Thread.jump_start hf]
          intro hret
          cases l with
          | returned code => exact ⟨code, rfl⟩
          | _ => cases hret
    | did c r =>
        have hnot : ¬ s.main.loc.isReturned = true := by
          intro hret
          obtain ⟨code, hr⟩ := hstays hret
          exact Thread.did_rest hf _ hr
        rw [Thread.did_loc hf]
        exact ⟨id, fun hret => absurd hret hnot⟩

/-- Whether the config is allocated after an event. -/
def freshAfter (fresh : Bool) : Event → Bool
  | .main (.did .freeConfig _)     => false
  | .main (.did (.loadConfig _) _) => true
  | _                              => fresh

theorem freshAfter_did {fresh : Bool} {c : ServerCall} {r : c.Resp} :
    freshContract.post fresh c r (freshAfter fresh (.main (.did c r))) := by
  cases c with
  | wild => exact r.elim
  | _ => simp [freshContract, freshAfter]

/-- An allocated config stays allocated until it is freed. -/
theorem freshAfter_step {fresh : Bool} (h : Daemon.Step s ev s')
    (hfresh : fresh = true → ∀ b, s.configs[s.config]? = some b → b.released = false)
    (hafter : freshAfter fresh ev = true) (b' : ConfigBlock) (hb' : s'.configs[s'.config]? = some b') :
    b'.released = false := by
  by_cases hfree : ev = .main (.did .freeConfig ())
  · subst hfree
    cases hafter
  by_cases hload : ∃ path c, ev = .main (.did (.loadConfig path) c)
  · obtain ⟨path, c, rfl⟩ := hload
    rw [← Option.some.inj (Daemon.shared_call h)] at hb'
    simp only [List.getElem?_concat_length, Option.some.injEq] at hb'
    rw [← hb']
  · have hsame : freshAfter fresh ev = fresh := by
      unfold freshAfter
      split
      · exact absurd rfl hfree
      · exact absurd ⟨_, _, rfl⟩ hload
      · rfl
    obtain ⟨hc, hcs⟩ := Daemon.config_frame h hfree fun path c he => hload ⟨path, c, he⟩
    rw [hc, hcs] at hb'
    rw [hsame] at hafter
    exact hfresh hafter b' hb'

end Steps

/-- **Step lemma**, for a step of the daemon. -/
theorem lifeInv_daemon {ev : Event} (hinv : LifeInv p) (hlegal : FreeLegal p (.daemon ev))
    (h : Step p (.daemon ev) p') : LifeInv p' := by
  obtain ⟨s', hs, rfl⟩ := step_daemon h
  obtain ⟨hreturned, hstays⟩ := returned_step hinv.stays hs
  obtain ⟨fresh, hok, hfresh⟩ := hinv.main
  refine ⟨?_, ⟨freshAfter fresh ev, ?_, fun hafter b hb => freshAfter_step hs hfresh hafter b hb⟩,
    fun hfreed => hreturned (hinv.gone hfreed), hstays⟩
  · intro d' hd' o hreleased
    obtain ⟨i, hi⟩ := List.getElem?_of_mem hd'
    -- what a sender from before may have lost is released already, or lost by this step
    have hold : ∀ d ∈ p.daemon.senders, d'.config = d.config → Finished o d.thread := by
      intro d hd hconfig
      cases o with
      | config =>
          obtain ⟨b', hb', hb'r⟩ := hreleased
          rcases block_released hs hb' hb'r with ⟨b, hb, hbr⟩ | ⟨rfl, hc⟩
          · exact hinv.finished d hd .config ⟨b, hconfig ▸ hb, hbr⟩
          · exact hlegal d hd (hconfig ▸ hc)
      | _ => exact hinv.finished d hd _ hreleased
    rcases Daemon.sender_cases hs hi with ⟨hd, -⟩ | ⟨a, d, -, hd, hconfig, hf⟩ | ⟨-, rfl, rfl⟩
    · exact hold d' (List.mem_of_getElem? hd) rfl
    · have hfin := hold d (List.mem_of_getElem? hd) hconfig
      cases a with
      | jump l =>
          unfold Finished at hfin ⊢
          rw [Thread.jump_rest hf] at hfin
          rw [Thread.jump_start hf]
          exact finished_block hfin
      | did c r => exact (Thread.within_did hfin hf).2
    · obtain ⟨t, sh, hf, -, -⟩ := Daemon.step_main hs
      have halloc := hfresh (hok.pre hf rfl)
      have hfreed : p.freed = [] := by
        by_contra hne
        obtain ⟨code, hr⟩ := hinv.stays (hinv.gone hne)
        exact Thread.did_rest hf _ hr
      cases o with
      | config =>
          obtain ⟨b', hb', hb'r⟩ := hreleased
          rcases block_released hs hb' hb'r with ⟨b, hb, hbr⟩ | ⟨he, -⟩
          · rw [halloc b hb] at hbr
            cases hbr
          · cases he
      | _ =>
          have hmem : _ ∈ p.freed := hreleased
          rw [hfreed] at hmem
          cases hmem
  · apply Daemon.mainOk_step hs hok
    · intro l he hl
      subst he
      exact fresh_verified l fresh hl
    · intro c r he _
      subst he
      exact freshAfter_did
    · intro he
      cases ev with
      | main a => exact absurd rfl (he a)
      | _ => rfl

/-- What a statement of `destroy_server` leaves of the daemon. -/
theorem tearDown_daemon (t : Teardown) :
    (p.tearDown t).daemon.main = p.daemon.main ∧ (p.tearDown t).daemon.senders = p.daemon.senders := by
  unfold tearDown
  split <;> exact ⟨rfl, rfl⟩

/-- What is released after a statement of `destroy_server` was so before, or the statement has released it. -/
theorem released_tearDown {t : Teardown} {d : SenderThread} {o : Object} (h : Released (p.tearDown t) d o) :
    Released p d o ∨ (t = .free o ∧ (o = .config → d.config = p.daemon.config)) := by
  cases t with
  | closeSocket => exact Or.inl h
  | free o' =>
      by_cases hconfig : o = .config
      · subst hconfig
        by_cases hfree : o' = .config
        · subst hfree
          obtain ⟨b', hb', hreleased⟩ := h
          by_cases hd : d.config = p.daemon.config
          · exact Or.inr ⟨rfl, fun _ => hd⟩
          · have hb' : (p.daemon.configs.modify p.daemon.config _)[d.config]? = some b' := hb'
            rw [List.getElem?_modify] at hb'
            obtain ⟨b, hb, rfl⟩ := Option.map_eq_some_iff.mp hb'
            rw [if_neg (Ne.symm hd)] at hreleased
            exact Or.inl ⟨b, hb, hreleased⟩
        · refine Or.inl ?_
          cases o' with
          | config => exact absurd rfl hfree
          | _ => exact h
      · have hfreed : o ∈ p.freed ++ [o'] := by
          cases o with
          | config => exact absurd rfl hconfig
          | _ => cases o' <;> exact h
        rcases List.mem_append.mp hfreed with hmem | hmem
        · refine Or.inl ?_
          cases o with
          | config => exact absurd rfl hconfig
          | _ => exact hmem
        · obtain rfl := List.mem_singleton.mp hmem
          exact Or.inr ⟨rfl, fun hc => absurd hc hconfig⟩

/-- **Step lemma**, for a statement of `destroy_server`. -/
theorem lifeInv_teardown {t : Teardown} (hinv : LifeInv p) (hlegal : FreeLegal p (.teardown t))
    (h : Step p (.teardown t) p') : LifeInv p' := by
  obtain ⟨hreturned, rfl⟩ := step_teardown h
  obtain ⟨hmain, hsenders⟩ := tearDown_daemon (p := p) t
  obtain ⟨code, hr⟩ := hinv.stays hreturned
  constructor
  · intro d hd o hreleased
    have hmem : d ∈ p.daemon.senders := by
      rw [← hsenders]
      exact hd
    rcases released_tearDown (p := p) (t := t) hreleased with hold | ⟨rfl, hconfig⟩
    · exact hinv.finished d hmem o hold
    · exact hlegal d hmem hconfig
  · refine ⟨false, ?_, fun h => by cases h⟩
    show Thread.Ok _ _ (p.tearDown t).daemon.main _
    unfold Thread.Ok
    rw [hmain, hr]
    exact fun h => by cases h
  · intro _
    show (p.tearDown t).daemon.main.loc.isReturned = true
    rw [hmain]
    exact hreturned
  · intro _
    show ∃ code, (p.tearDown t).daemon.main.rest = _
    rw [hmain]
    exact ⟨code, hr⟩

theorem lifeInv_step (hinv : LifeInv p) (hlegal : FreeLegal p e) (h : Step p e p') : LifeInv p' := by
  cases e with
  | daemon ev => exact lifeInv_daemon hinv hlegal h
  | teardown t => exact lifeInv_teardown hinv hlegal h
  | finish =>
      obtain rfl := step_finish h
      exact ⟨hinv.finished, hinv.main, hinv.gone, hinv.stays⟩

theorem LifeInv.safe (hinv : LifeInv p) : Safe p := by
  intro d hd c o hnext huses hreleased
  obtain ⟨k, hr⟩ := Prog.next_eq hnext
  have hfin := hinv.finished d hd o hreleased
  unfold Finished at hfin
  rw [hr] at hfin
  exact hfin.1 huses

/-- The sender has ended. -/
def atExit (d : SenderThread) : Bool := match d.thread.rest with
  | .ret .exited => true
  | _            => false

/-- An object is freed only when every sender has ended. -/
def FreeLate (p : Process) : ProcessEvent → Prop
  | .daemon (.main (.did .freeConfig _)) | .teardown _ => p.daemon.senders.all atExit = true
  | _                                                  => True

instance (p : Process) (e : ProcessEvent) : Decidable (FreeLate p e) := by
  unfold FreeLate
  split <;> infer_instance

theorem freeLegal_of_late (h : FreeLate p e) : FreeLegal p e := by
  have hfinished : p.daemon.senders.all atExit = true → ∀ o, ∀ d ∈ p.daemon.senders, Finished o d.thread := by
    intro hall o d hd
    have hexit := List.all_eq_true.mp hall d hd
    unfold atExit at hexit
    unfold Finished
    split at hexit
    · rename_i hr
      rw [hr]
      cases o <;> rfl
    · cases hexit
  unfold FreeLegal
  split
  · exact fun d hd _ => hfinished h _ d hd
  · exact fun d hd _ => hfinished h _ d hd
  · trivial

/-- START, the sender fails, KILL, and the process ends. -/
def cleanEnd : List ProcessEvent :=
  (Daemon.boot ++ Daemon.order .start Daemon.startEvents ++ Daemon.failEvents 0 ++ Daemon.killOrder).map .daemon ++
    destroyServer.map .teardown ++ [.finish]

/-- START, and the sender gets to its loop. -/
def startOne : List Event := Daemon.boot ++ Daemon.order .start Daemon.startEvents ++ Daemon.joinEvents 0

/-- The message of a RELOAD that brings a config. -/
def reloadArgs : Bytes := CommandArgs.encode ⟨.reload, 1, List.replicate 256 0⟩

/-- RELOAD frees the config that the sender is about to read. -/
def reloadRun : List ProcessEvent :=
  (startOne ++ Daemon.receive reloadArgs ++
    [.main (.jump (.handle Daemon.commandConn reloadArgs)), Daemon.mainCall .lockSender (),
      Daemon.mainCall .freeConfig (), Daemon.mainCall (.loadConfig []) Daemon.emptyConfig,
      Daemon.mainCall .unlockSender (), Daemon.senderCall 0 .lock ()]).map .daemon

/-- After KILL `destroy_server` frees the flag that the sender is about to read. -/
def killRun : List ProcessEvent :=
  (startOne ++ [Daemon.senderCall 0 .lock (), Daemon.senderCall 0 .config Daemon.emptyConfig,
    Daemon.senderCall 0 .unlock (), .sender 0 (.jump (.round ⟨3, []⟩ 0)), Daemon.senderCall 0 (.poll []) ⟨0, []⟩,
    .sender 0 (.jump (.check ⟨3, []⟩ true))] ++ Daemon.killOrder).map .daemon ++
  [.teardown (.free .listenerMutex), .teardown .closeSocket, .teardown (.free .sending),
    .daemon (Daemon.senderCall 0 .lock ())]

/-- What the senders are about to do, and what is released. -/
def outlook (p : Process) : List (Option SenderCall × Nat) × List Bool × List Object :=
  (p.daemon.senders.map fun d => (d.thread.rest.next, d.config), p.daemon.configs.map (·.released), p.freed)

end Process

end IOSwitch
