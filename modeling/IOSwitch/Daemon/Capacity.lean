import IOSwitch.Daemon.Slots

/-!
# `Daemon.Capacity` — what `num_conns` counts

`run_server` counts a listener when it has created it, and nothing counts it back when it ends. So `num_conns`
is the number of listeners ever created, at most `maxConnections` of them in the life of the daemon, and it is
the number of live ones exactly as long as no listener has ended (`capacity_iff`).

## Contents
- `countContract`, `count_verified` — a listener is counted before anything else is done.
- `CountInv`, `countInv_run` — the count of every run.
- `CapacityOk`, `capacity_iff`, `capacity_spent`.
-/

namespace IOSwitch

open Lib Server

/-! ## The discipline of the main thread -/

/-- Every listener created is counted before the main thread does anything else, and none is created when
    `maxConnections` are counted. -/
def countContract : Contract serverI SlotView where
  pre g c := match c with
    | .incrNumConns       => g.created = g.count + 1 ∧ g.created ≤ maxConnections
    | .createListener _ _ => g.created = g.count ∧ g.created < maxConnections
    | _                   => g.created = g.count ∧ g.created ≤ maxConnections
  post := slotContract.post

/-- Every listener created is counted, within the limit. -/
def AllCounted (g : SlotView) : Prop := g.created = g.count ∧ g.created ≤ maxConnections

theorem findSlot_counted (n i openSlot : Nat) {g : SlotView} (hg : AllCounted g) :
    wp countContract (findSlot n i openSlot) (fun g' _ => g' = g) g := by
  apply wp_findSlot
  intro i
  exact ⟨hg, fun _ _ h => h.2⟩

theorem createDevices_counted (sockfd : Int) (conn : Bytes) (n : Nat) {g : SlotView} (hg : AllCounted g) :
    wp countContract (createDevices sockfd conn n 0 []) (fun g' _ => g' = g) g := by
  refine wp_createDevices (fun c hc => ?_) sockfd conn n 0 []
  cases c with
  | openUinput | devSetup _ _ | devCreate _ => exact ⟨hg, fun _ _ h => h⟩
  | _ => exact hc.elim

/-- **A new listener is counted.** -/
theorem acceptInput_counted (fd : Int) (conn : Bytes) {g : SlotView} (hg : AllCounted g) :
    wp countContract (acceptInput fd conn) (fun g' _ => AllCounted g') g := by
  refine ⟨hg, ?_⟩
  rintro _ g ⟨rfl, rfl⟩
  show wp _ (if maxConnections ≤ g.count then _ else _) _ _
  by_cases hmax : maxConnections ≤ g.count
  · rw [if_pos hmax]
    exact hg
  rw [if_neg hmax]
  refine ⟨hg, ?_⟩
  rintro _ g rfl
  show wp _ (findSlot g.count 0 0 >>= _) _ _
  refine wp_seq (findSlot_counted g.count 0 0 hg) ?_
  rintro g slot rfl
  refine wp_seq (createDevices_counted fd conn _ hg) ?_
  rintro g devices rfl
  refine ⟨hg, ?_⟩
  rintro _ g rfl
  obtain ⟨hcreated, hle⟩ := hg
  refine ⟨⟨hcreated, by omega⟩, ?_⟩
  rintro _ g rfl
  refine ⟨⟨by simp [hcreated], by simp only; omega⟩, ?_⟩
  rintro _ g rfl
  exact ⟨by simp [hcreated], by simp only; omega⟩

/-- **Between the blocks of the main thread every listener is counted.** -/
theorem count_verified : Thread.Verified countContract runServer fun _ => AllCounted := by
  apply runServer_verified
  · intro g c hg hc
    cases c with
    | numConns | connection _ | createListener _ _ | incrNumConns => exact absurd trivial hc
    | wild => exact ⟨hg, fun r => r.elim⟩
    | _ =>
        refine ⟨hg, ?_⟩
        rintro r _ rfl
        exact hg
  · intro fd conn g hg
    exact acceptInput_counted fd conn hg

namespace Daemon

variable {s s' : Daemon} {e : Event} {tr : List Event}

/-! ## The invariant -/

/-- A listener was created that is not counted yet. -/
def counting (s : Daemon) : Nat := if s.main.rest.next = some .incrNumConns then 1 else 0

/-- The main thread keeps `countContract`, and no slot is marked. -/
structure CountInv (s : Daemon) : Prop where
  main  : s.main.Ok countContract (fun _ => AllCounted) (slotView s)
  marks : ∀ v ∈ s.connections, v = 0

theorem countInv_init (cfg : Config) (conn args : Bytes) : CountInv (init cfg conn args) where
  main := count_verified (.entry conn args) _ ⟨rfl, Nat.zero_le _⟩
  marks := fun _ hv => List.eq_of_mem_replicate hv

/-- **Step lemma.** -/
theorem countInv_step (hinv : CountInv s) (h : Step s e s') : CountInv s' := by
  constructor
  · apply mainOk_step h hinv.main
    · intro l he hl
      subst he
      rw [slotView_frame h (by simp)]
      exact count_verified l _ hl
    · intro c r he _
      subst he
      exact slotView_did hinv.marks h
    · intro he
      exact slotView_frame h fun c r => he _
  · exact marks_step hinv.marks h

/-- The count and what is still to be counted are the listeners created, and these are within the limit. -/
theorem CountInv.count (hinv : CountInv s) :
    s.numConns + counting s = s.listeners.length ∧ s.listeners.length ≤ maxConnections := by
  unfold counting
  cases hr : s.main.rest with
  | ret l =>
      obtain ⟨hcreated, hle⟩ : AllCounted (slotView s) := hinv.main.of_ret hr
      exact ⟨hcreated.symm, hle⟩
  | call c k =>
      have hpre := (hinv.main.of_call hr).1
      by_cases hc : c = .incrNumConns
      · subst hc
        exact ⟨hpre.1.symm, hpre.2⟩
      · have hall : AllCounted (slotView s) := by
          cases c with
          | incrNumConns => exact absurd rfl hc
          | createListener slot args => exact ⟨hpre.1, Nat.le_of_lt hpre.2⟩
          | _ => exact hpre
        have hnext : ¬ (Prog.call (I := serverI) c k).next = some .incrNumConns := by
          simpa [Prog.next] using hc
        rw [if_neg hnext]
        exact ⟨hall.1.symm, hall.2⟩

theorem countInv_run {cfg : Config} {conn args : Bytes} (h : Run Step (init cfg conn args) tr s) : CountInv s :=
  h.invariant (countInv_init cfg conn args) fun _ _ _ => countInv_step

/-! ## The law of the capacity -/

/-- The listener threads that are alive. -/
def liveListeners (s : Daemon) : Nat := s.listeners.countP fun d => d.thread.loc.alive

/-- The accept loop is about to turn an input connection away. -/
def Refusing (s : Daemon) : Prop := s.main.rest.next = some .numConns ∧ maxConnections ≤ s.numConns

/-- `num_conns` is the number of live listeners, once the one just created is counted, and a connection is
    turned away only when `maxConnections` of them are alive. -/
def CapacityOk (s : Daemon) : Prop :=
  s.numConns + counting s = liveListeners s ∧ (Refusing s → liveListeners s = maxConnections)

/-- No listener ends: no peer of an input connection disconnects. -/
def NoEnd (_ : Daemon) (e : Event) : Prop := ∀ m, e ≠ .listener m (.jump .exited)

/-- The law holds iff no listener has ended. -/
theorem capacityOk_iff (hinv : CountInv s) : CapacityOk s ↔ ∀ d ∈ s.listeners, d.thread.loc.alive = true := by
  obtain ⟨hcount, hle⟩ := hinv.count
  have hall : liveListeners s = s.listeners.length ↔ ∀ d ∈ s.listeners, d.thread.loc.alive = true :=
    List.countP_eq_length
  rw [← hall]
  constructor
  · intro hok
    exact hok.1.symm.trans hcount
  · intro hlive
    refine ⟨hcount.trans hlive.symm, ?_⟩
    intro hrefuse
    have hmax := hrefuse.2
    omega

/-- **Step lemma.** The law is kept by exactly the steps that end no listener. -/
theorem capacityOk_step (hinv : CountInv s) (hok : CapacityOk s) (h : Step s e s') : NoEnd s e ↔ CapacityOk s' := by
  rw [capacityOk_iff hinv] at hok
  rw [capacityOk_iff (countInv_step hinv h)]
  constructor
  · intro hno d' hd'
    obtain ⟨m, hm⟩ := List.getElem?_of_mem hd'
    rcases listener_cases h hm with ⟨hd, -⟩ | ⟨a, d, he, hd, -, -, hf⟩ | ⟨-, slot, args, -, hnew⟩
    · exact hok d' (List.mem_of_getElem? hd)
    · cases a with
      | jump l =>
          rw [Thread.jump_start hf]
          cases l with
          | loop packet => rfl
          | exited => exact absurd he (hno m)
      | did c r =>
          rw [Thread.did_loc hf]
          exact hok d (List.mem_of_getElem? hd)
    · rw [hnew]
      rfl
  · intro hall m he
    subst he
    obtain ⟨d, t, sh, hd, hf, -, rfl⟩ := step_listener h
    have hm : m < s.listeners.length := (List.getElem?_eq_some_iff.mp hd).1
    -- the listener that ended is among those after the step
    have hdead := hall _ (List.mem_of_getElem? (List.getElem?_set_self hm))
    rw [Thread.jump_start hf] at hdead
    cases hdead

/-- **The capacity.** A run passes through states that obey the law only iff no listener ends in it. In every
    run `num_conns` counts the listeners ever created, and these are at most `maxConnections`. -/
theorem capacity_iff {cfg : Config} {conn args : Bytes} (h : Run Step (init cfg conn args) tr s) :
    ((∀ tr₁ s₁, tr₁ <+: tr → Run Step (init cfg conn args) tr₁ s₁ → CapacityOk s₁) ↔
      Run (Restrict NoEnd Step) (init cfg conn args) tr s) ∧
    s.numConns + counting s = s.listeners.length ∧ s.listeners.length ≤ maxConnections := by
  have hdet : ∀ a e b b', Step a e b → Step a e b' → b = b' := fun _ _ _ _ => step_unique
  have h0 : CapacityOk (init cfg conn args) :=
    (capacityOk_iff (countInv_init cfg conn args)).mpr fun d hd => by simp [init] at hd
  refine ⟨?_, (countInv_run h).count⟩
  exact h.restrict_iff hdet (countInv_init cfg conn args) h0 (fun _ _ _ => countInv_step) fun _ _ _ => capacityOk_step

/-- An input connection is accepted when `m` are counted, and its peer disconnects. -/
def visit (m : Nat) : List Event := joinInput m (m - 1) ++ leaveInput m

theorem capacity_iff_one :
    ∃ s, Run Step (init emptyConfig [] []) (boot ++ visit 0) s ∧ s.numConns = 1 ∧ s.listeners.length = 1 := by
  have hexec : (execs exec (init emptyConfig [] []) (boot ++ visit 0)).map
      (fun s => (s.numConns, counting s)) = some (1, 0) := by
    decide +kernel
  obtain ⟨s, hrun, hfin⟩ := Run.exists_of_execs hexec
  obtain ⟨hcount, hcounting⟩ := Prod.mk.inj hfin
  obtain ⟨-, hlen, -⟩ := capacity_iff hrun
  exact ⟨s, hrun, hcount, by omega⟩

/-- A ninth connection, after `maxConnections` that have come and gone. -/
def ninth : List Event :=
  boot ++ (List.range maxConnections).flatMap visit ++
    [mainCall .accept (4 : Int), mainCall (.recvConn 4) (received inputConn)]

/-- **The capacity is spent**: after eight visits a connection is turned away although no listener is alive. -/
theorem capacity_spent :
    ∃ s, Run Step (init emptyConfig [] []) ninth s ∧ Refusing s ∧ liveListeners s = 0 ∧ ¬ CapacityOk s := by
  have hexec : (execs exec (init emptyConfig [] []) ninth).map
      (fun s => (s.main.rest.next, s.numConns, liveListeners s)) = some (some .numConns, 8, 0) := by
    decide +kernel
  obtain ⟨s, hrun, hfin⟩ := Run.exists_of_execs hexec
  simp only [Prod.mk.injEq] at hfin
  obtain ⟨hnext, hcount, hlive⟩ := hfin
  have hrefuse : Refusing s := ⟨hnext, by rw [hcount]; decide⟩
  refine ⟨s, hrun, hrefuse, hlive, ?_⟩
  intro hok
  rw [hok.2 hrefuse] at hlive
  cases hlive

end Daemon

end IOSwitch
