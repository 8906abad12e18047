import IOSwitch.Daemon.Lifetime

/-!
# `Daemon.Reclaim` — every object is freed once

Whether somebody still uses what is freed is one question (`Daemon.Lifetime`); whether it is freed at all, and not twice,
is another, and there the code is right: of all configs ever loaded only the current one is allocated, `free` is called
on what is allocated, and when `main` has returned nothing is left (`released_once`).
-/

namespace IOSwitch

open Lib Server

/-! ## The main thread -/

/-- The ghost state is whether `server->config` is allocated: only then is it freed, and only else replaced. -/
def ownContract : Contract serverI Bool where
  pre own c := match c with
    | .freeConfig   => own = true
    | .loadConfig _ => own = false
    | _             => True
  post own c r own' := match c, r with
    | .freeConfig, _   => own' = false
    | .loadConfig _, _ => own' = true
    | _, _             => own' = own

/-- Other calls have nothing to do with it. -/
theorem own_tame {own : Bool} {c : ServerCall} (hc : c.Tame ∨ c = .wild) :
    ownContract.pre own c ∧ ∀ r own', ownContract.post own c r own' → own' = own := by
  cases c with
  | freeConfig | loadConfig _ => rcases hc with hc | hc <;> cases hc
  | wild => exact ⟨trivial, fun r => r.elim⟩
  | _ => exact ⟨trivial, fun _ _ h => h⟩

theorem wp_tame {α : Type} {own : Bool} {p : Prog serverI α} (hp : p.Within ServerCall.Tame fun _ => True) :
    wp ownContract p (fun own' _ => own' = own) own :=
  wp_mono (wp_neutral hp fun _ hc => own_tame (.inl hc)) fun _ _ h => h.1

section Handlers

variable (args : CommandArgs)

/-- One config goes and another comes. -/
theorem replaceConfig_own : wp ownContract (Handler.replaceConfig args) (fun own _ => own = true) true := by
  unfold Handler.replaceConfig
  split
  · refine ⟨rfl, ?_⟩
    rintro _ _ rfl
    refine ⟨rfl, ?_⟩
    rintro _ _ rfl
    rfl
  · rfl

theorem reload_own : wp ownContract (Handler.reload args) (fun own _ => own = true) true := by
  refine ⟨trivial, ?_⟩
  rintro _ _ rfl
  show wp _ (Handler.replaceConfig args >>= _) _ _
  refine wp_seq (replaceConfig_own args) ?_
  rintro _ _ rfl
  refine ⟨trivial, ?_⟩
  rintro _ _ rfl
  show wp _ (Handler.stop args >>= _) _ _
  refine wp_seq (wp_tame (stop_tame args)) ?_
  rintro _ _ rfl
  exact wp_seq (wp_tame (start_tame args)) fun _ _ h => h

theorem commands_own : wp ownContract (commands args) (fun own _ => own = true) true := by
  unfold commands
  split
  · rfl
  · rfl
  · exact wp_tame (start_tame args)
  · exact wp_tame (stop_tame args)
  · exact wp_tame (switchState_tame args)
  · exact reload_own args
  · exact wp_seq (wp_tame (stop_tame args)) fun _ _ h => h
  · exact ⟨trivial, fun r => r.elim⟩

end Handlers

/-- **Every block of the main thread** begins and ends with the config allocated. -/
theorem own_verified : Thread.Verified ownContract runServer fun _ own => own = true := by
  rintro l _ rfl
  cases l with
  | entry conn args =>
      refine ⟨trivial, ?_⟩
      rintro r _ rfl
      show wp _ (if r < 0 then _ else _) _ _
      split <;> rfl
  | loop conn args =>
      refine wp_mono (wp_neutral (acceptOne_plain conn args) fun c hc => own_tame ?_) fun _ _ h => h.1
      cases c with
      | freeConfig | loadConfig _ => exact hc.elim
      | wild => exact .inr rfl
      | _ => exact .inl trivial
  | handle conn args =>
      refine wp_seq (commands_own _) ?_
      rintro _ result rfl
      rfl
  | returned code => rfl

namespace Daemon

variable {s s' : Daemon} {e : Event} {own : Bool}

/-- Block `n` is a config that has not been freed. -/
def Allocated (s : Daemon) (n : Nat) : Prop := ∃ b, s.configs[n]? = some b ∧ b.released = false

/-- Of all configs only the current one is allocated, and that only if it is owned. -/
def OnlyCurrent (s : Daemon) (own : Bool) : Prop := ∀ n, Allocated s n ↔ own = true ∧ n = s.config

theorem onlyCurrent_init (cfg : Config) (conn args : Bytes) : OnlyCurrent (init cfg conn args) true := by
  intro n
  cases n with
  | zero => exact ⟨fun _ => ⟨rfl, rfl⟩, fun _ => ⟨_, rfl, rfl⟩⟩
  | succ n =>
      constructor
      · rintro ⟨b, hb, -⟩
        cases hb
      · rintro ⟨-, hn⟩
        cases hn

theorem not_allocated_release {configs : List ConfigBlock} {ref n : Nat} :
    (∃ b, (configs.modify ref fun b => { b with released := true })[n]? = some b ∧ b.released = false) ↔
      n ≠ ref ∧ ∃ b, configs[n]? = some b ∧ b.released = false := by
  rw [List.getElem?_modify]
  by_cases hn : ref = n
  · subst hn
    simp
  · have hn' : n ≠ ref := fun h => hn h.symm
    simp [hn, hn']

/-- A step keeps to it, if it replaces only a config that has been freed. -/
theorem onlyCurrent_step (h : Step s e s') (honly : OnlyCurrent s own)
    (hload : ∀ path c, e = .main (.did (.loadConfig path) c) → own = false) :
    OnlyCurrent s' (Process.freshAfter own e) := by
  intro n
  by_cases hfree : e = .main (.did .freeConfig ())
  · subst hfree
    have hgone : Allocated s' n ↔ n ≠ s.config ∧ Allocated s n := by
      rw [Allocated, ← Option.some.inj (shared_call h)]
      exact not_allocated_release
    rw [hgone, honly n]
    constructor
    · rintro ⟨hne, -, heq⟩
      exact absurd heq hne
    · rintro ⟨hfalse, -⟩
      cases hfalse
  by_cases hnew : ∃ path c, e = .main (.did (.loadConfig path) c)
  · obtain ⟨path, c, rfl⟩ := hnew
    have hnone : ¬ Allocated s n := fun hn => by
      rw [honly n, hload path c rfl] at hn
      exact absurd hn.1 (by decide)
    rw [Allocated, ← Option.some.inj (shared_call h)]
    show (∃ b, (s.configs ++ [⟨c, false⟩])[n]? = some b ∧ b.released = false) ↔ true = true ∧ n = s.configs.length
    constructor
    · rintro ⟨b, hb, hreleased⟩
      rcases getElem?_append_cases hb with hb | ⟨hle, hb⟩
      · exact absurd ⟨b, hb, hreleased⟩ hnone
      · have hlt := (List.getElem?_eq_some_iff.mp hb).1
        rw [List.length_singleton] at hlt
        exact ⟨rfl, by omega⟩
    · rintro ⟨-, rfl⟩
      exact ⟨⟨c, false⟩, List.getElem?_concat_length, rfl⟩
  · have hsame : Process.freshAfter own e = own := by
      unfold Process.freshAfter
      split
      · exact absurd rfl hfree
      · exact absurd ⟨_, _, rfl⟩ hnew
      · rfl
    obtain ⟨hc, hcs⟩ := config_frame h hfree fun path c he => hnew ⟨path, c, he⟩
    rw [hsame, Allocated, hcs, hc]
    exact honly n

end Daemon

/-- What a statement of `destroy_server` frees. -/
def Teardown.object : Teardown → Option Object
  | .free o      => some o
  | .closeSocket => none

namespace Process

variable {p p' : Process} {e : ProcessEvent} {tr : List ProcessEvent}

/-! ## `destroy_server` -/

theorem teardown_head {t : Teardown} (h : Step p (.teardown t) p') : p.left = t :: p.left.tail := by
  simp only [Step, exec] at h
  split at h
  · cases h
  · split at h
    · next hhead =>
      cases hleft : p.left with
      | nil => rw [hleft] at hhead; cases hhead
      | cons u us => rw [hleft] at hhead; cases hhead; rfl
    · cases h

theorem finish_left (h : Step p .finish p') : p.left = [] := by
  simp only [Step, exec] at h
  split at h
  · cases h
  · next hgo =>
    simp only [Bool.or_eq_true, Bool.not_eq_true', not_or, Bool.not_eq_false] at hgo
    exact List.isEmpty_iff.mp hgo.2

/-- What a statement releases is what it names. -/
theorem tearDown_freed (t : Teardown) : (p.tearDown t).freed = p.freed ++ t.object.toList := by
  cases t with
  | closeSocket => exact (List.append_nil _).symm
  | free o => cases o <;> rfl

theorem tearDown_configs {t : Teardown} (ht : t ≠ .free .config) : (p.tearDown t).daemon = p.daemon := by
  cases t with
  | closeSocket => rfl
  | free o => cases o <;> first | rfl | exact absurd rfl ht

/-! ## Runs -/

/-- The main thread owns the current config until `destroy_server` frees it, and then there is none; what has been freed
    and what is left of `destroy_server` are all that it frees. -/
structure ReclaimInv (p : Process) : Prop where
  main    : ∃ own, p.daemon.main.Ok ownContract (fun _ own => own = true) own ∧
    (.config ∉ p.freed → p.daemon.OnlyCurrent own)
  cleared : .config ∈ p.freed → ∀ n, ¬ p.daemon.Allocated n
  stays   : p.daemon.main.loc.isReturned = true → ∃ code, p.daemon.main.rest = .ret (.returned code)
  gone    : p.freed ≠ [] → p.daemon.main.loc.isReturned = true
  order   : p.freed ++ p.left.filterMap Teardown.object = destroyServer.filterMap Teardown.object
  ended   : p.ended = true → p.left = []

theorem reclaimInv_init (cfg : Config) (conn args : Bytes) : ReclaimInv (init cfg conn args) where
  main    := ⟨true, own_verified (.entry conn args) true rfl, fun _ => Daemon.onlyCurrent_init cfg conn args⟩
  cleared := fun h => by cases h
  stays   := fun h => by cases h
  gone    := fun h => absurd rfl h
  order   := rfl
  ended   := fun h => by cases h

theorem freshAfter_own {own : Bool} {c : ServerCall} {r : c.Resp} :
    ownContract.post own c r (freshAfter own (.main (.did c r))) := by
  cases c with
  | wild => exact r.elim
  | _ => rfl

/-- Once `run_server` has returned, its thread makes no call. -/
theorem ReclaimInv.silent (hinv : ReclaimInv p) (hret : p.daemon.main.loc.isReturned = true) {s' : Daemon} {c : ServerCall}
    {r : c.Resp} (h : Daemon.Step p.daemon (.main (.did c r)) s') : False := by
  obtain ⟨t, sh, hf, -, -⟩ := Daemon.step_main h
  obtain ⟨code, hr⟩ := hinv.stays hret
  exact Thread.did_rest hf _ hr

/-- **Step lemma**, for a step of the daemon. -/
theorem reclaimInv_daemon {ev : Event} (hinv : ReclaimInv p) (h : Step p (.daemon ev) p') : ReclaimInv p' := by
  obtain ⟨s', hs, rfl⟩ := step_daemon h
  obtain ⟨own, hok, honly⟩ := hinv.main
  obtain ⟨hreturned, hstays⟩ := returned_step hinv.stays hs
  refine ⟨⟨freshAfter own ev, ?_, fun hfreed => ?_⟩, fun hfreed n => ?_, hstays, fun hne => hreturned (hinv.gone hne),
    hinv.order, hinv.ended⟩
  · refine Daemon.mainOk_step hs hok ?_ ?_ fun he => ?_
    · rintro l rfl hl
      exact own_verified l own hl
    · rintro c r rfl -
      exact freshAfter_own
    · cases ev with
      | main a => exact absurd rfl (he a)
      | _ => rfl
  · refine Daemon.onlyCurrent_step hs (honly hfreed) ?_
    rintro path c rfl
    obtain ⟨t, sh, hf, -, -⟩ := Daemon.step_main hs
    exact hok.pre hf
  · -- the configs stay as `destroy_server` has left them
    have hret := hinv.gone (List.ne_nil_of_mem hfreed)
    have hframe := (Daemon.config_frame hs (fun he => by subst he; exact hinv.silent hret hs)
      (fun path c he => by subst he; exact hinv.silent hret hs)).2
    rw [Daemon.Allocated, hframe]
    exact hinv.cleared hfreed n

/-- **Step lemma**, for a statement of `destroy_server`. -/
theorem reclaimInv_teardown {t : Teardown} (hinv : ReclaimInv p) (h : Step p (.teardown t) p') : ReclaimInv p' := by
  have hleft := teardown_head h
  obtain ⟨hret, rfl⟩ := step_teardown h
  obtain ⟨own, hok, honly⟩ := hinv.main
  obtain ⟨hmain, -⟩ := tearDown_daemon (p := p) t
  have horder : (p.tearDown t).freed ++ p.left.tail.filterMap Teardown.object =
      destroyServer.filterMap Teardown.object := by
    rw [tearDown_freed, ← hinv.order, hleft, List.append_assoc]
    cases t <;> rfl
  have hmem : .config ∈ (p.tearDown t).freed ↔ .config ∈ p.freed ∨ t = .free .config := by
    rw [tearDown_freed, List.mem_append, Option.mem_toList]
    cases t <;> simp [Teardown.object]
  refine ⟨⟨own, ?_, fun hfreed => ?_⟩, fun hfreed n => ?_, ?_, fun _ => ?_, horder, fun hended => ?_⟩
  · show Thread.Ok _ _ (p.tearDown t).daemon.main _
    rw [hmain]
    exact hok
  · obtain ⟨hold, hne⟩ := not_or.mp (mt hmem.mpr hfreed)
    show (p.tearDown t).daemon.OnlyCurrent own
    rw [tearDown_configs hne]
    exact honly hold
  · show ¬ (p.tearDown t).daemon.Allocated n
    by_cases hne : t = .free .config
    · subst hne
      show ¬ ∃ b, (p.daemon.configs.modify p.daemon.config _)[n]? = some b ∧ b.released = false
      rw [Daemon.not_allocated_release]
      rintro ⟨hn, halloc⟩
      by_cases hold : .config ∈ p.freed
      · exact hinv.cleared hold n halloc
      · exact hn ((honly hold n).mp halloc).2
    · rw [tearDown_configs hne]
      exact hinv.cleared ((hmem.mp hfreed).resolve_right hne) n
  · show (p.tearDown t).daemon.main.loc.isReturned = true → _
    rw [hmain]
    exact hinv.stays
  · show (p.tearDown t).daemon.main.loc.isReturned = true
    rw [hmain]
    exact hret
  · have hnil := hinv.ended (show p.ended = true from ?_)
    · rw [hnil] at hleft
      cases hleft
    · cases t with
      | closeSocket => exact hended
      | free o => cases o <;> exact hended

theorem reclaimInv_step (hinv : ReclaimInv p) (h : Step p e p') : ReclaimInv p' := by
  cases e with
  | daemon ev => exact reclaimInv_daemon hinv h
  | teardown t => exact reclaimInv_teardown hinv h
  | finish =>
      have hleft := finish_left h
      obtain rfl := step_finish h
      exact ⟨hinv.main, hinv.cleared, hinv.stays, hinv.gone, hinv.order, fun _ => hleft⟩

/-- The event frees the current config. -/
def FreesConfig (e : ProcessEvent) : Prop := e = .daemon (.main (.did .freeConfig ())) ∨ e = .teardown (.free .config)

/-- A config that is freed is allocated. -/
theorem ReclaimInv.allocated (hinv : ReclaimInv p) (h : Step p e p') (he : FreesConfig e) :
    p.daemon.Allocated p.daemon.config := by
  obtain ⟨own, hok, honly⟩ := hinv.main
  rcases he with rfl | rfl
  · obtain ⟨s', hs, -⟩ := step_daemon h
    obtain ⟨t, sh, hf, -, -⟩ := Daemon.step_main hs
    have hnone : .config ∉ p.freed := fun hfreed => hinv.silent (hinv.gone (List.ne_nil_of_mem hfreed)) hs
    exact (honly hnone _).mpr ⟨hok.pre hf, rfl⟩
  · have hleft := teardown_head h
    obtain ⟨hret, -⟩ := step_teardown h
    obtain ⟨code, hr⟩ := hinv.stays hret
    have hnone : .config ∉ p.freed := by
      intro hfreed
      -- `destroy_server` names it once
      have hcount := congrArg (List.count Object.config) hinv.order
      have hobject : (Teardown.free .config).object = some .config := rfl
      rw [hleft, List.count_append, List.filterMap_cons_some hobject, List.count_cons_self] at hcount
      have hpos := List.count_pos_iff.mpr hfreed
      have hone : List.count Object.config (destroyServer.filterMap Teardown.object) = 1 := by decide
      omega
    exact (honly hnone _).mpr ⟨hok.of_ret hr, rfl⟩

/-- **Everything is freed, and once.** In every run of the process no config is allocated but the current one; a config
    is freed only while it is allocated; `destroy_server` frees no object twice; and when `main` has returned, every
    config that was ever loaded and all the objects are freed. -/
theorem released_once {cfg : Config} {conn args : Bytes} (h : Run Step (init cfg conn args) tr p) :
    (∀ n, p.daemon.Allocated n → n = p.daemon.config) ∧
      (∀ e p', Step p e p' → FreesConfig e → p.daemon.Allocated p.daemon.config) ∧ p.freed.Nodup ∧
      (p.ended = true → (∀ n, ¬ p.daemon.Allocated n) ∧ ∀ o, o ∈ p.freed) := by
  have hinv : ReclaimInv p := h.invariant (reclaimInv_init cfg conn args) fun _ _ _ => reclaimInv_step
  obtain ⟨own, -, honly⟩ := hinv.main
  have hnodup : (destroyServer.filterMap Teardown.object).Nodup := by decide
  refine ⟨fun n hn => ?_, fun _ _ => hinv.allocated, ?_, fun hended => ?_⟩
  · by_cases hfreed : .config ∈ p.freed
    · exact absurd hn (hinv.cleared hfreed n)
    · exact ((honly hfreed n).mp hn).2
  · rw [← hinv.order] at hnodup
    exact (List.nodup_append.mp hnodup).1
  · have hall := hinv.order
    rw [hinv.ended hended, List.filterMap_nil, List.append_nil] at hall
    have hmem : ∀ o, o ∈ p.freed := by
      rw [hall]
      intro o
      cases o <;> decide
    exact ⟨hinv.cleared (hmem .config), hmem⟩

/-- A RELOAD with a config is served. -/
def reloadEvents : List Event :=
  Daemon.receive reloadArgs ++
    [.main (.jump (.handle Daemon.commandConn reloadArgs)), Daemon.mainCall .lockSender (),
      Daemon.mainCall .freeConfig (), Daemon.mainCall (.loadConfig []) Daemon.emptyConfig,
      Daemon.mainCall .unlockSender ()] ++
    Daemon.stopEvents ++ Daemon.startEvents ++ [.main (.jump (.loop Daemon.commandConn reloadArgs))]

/-- START, RELOAD, the senders fail, KILL, and the process ends. -/
def reloadedEnd : List ProcessEvent :=
  (Daemon.boot ++ Daemon.order .start Daemon.startEvents ++ Daemon.failEvents 0 ++ reloadEvents ++ Daemon.failEvents 1 ++
    Daemon.killOrder).map .daemon ++ destroyServer.map .teardown ++ [.finish]

theorem released_once_reloaded : ∃ p, Run Step (init Daemon.emptyConfig [] []) reloadedEnd p ∧ p.ended = true ∧
    p.daemon.configs.length = 2 ∧ ∀ n, ¬ p.daemon.Allocated n := by
  have hexec : (execs exec (init Daemon.emptyConfig [] []) reloadedEnd).map (fun p => (p.ended, p.daemon.configs.length)) =
      some (true, 2) := by
    decide +kernel
  obtain ⟨p, hrun, hfin⟩ := Run.exists_of_execs hexec
  obtain ⟨hended, hlen⟩ := Prod.mk.inj hfin
  exact ⟨p, hrun, hended, hlen, ((released_once hrun).2.2.2 hended).1⟩

end Process

end IOSwitch
