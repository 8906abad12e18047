import IOSwitch.Daemon.Script

/-!
# `Daemon.Slots` — the slots of the listeners

`run_server` looks for a free slot among the first `num_conns` entries of `connections`, where nothing ever
marks an entry as taken. The search therefore ends on the last of them, and the slots are handed out as
0, 0, 1, 2, …, 6 (`slotInv_run`): the first two listeners share slot 0, and the marks disagree with the live
listeners as soon as there is one (`slots_ok_iff`).

## Contents
- `slotContract`, `slot_verified` — what the main thread does with the counter and the marks.
- `SlotInv`, `slotInv_step` — the slots handed out, for every run.
- `SlotsOk`, `slots_ok_iff`, `shared_slot`.
-/

namespace IOSwitch

open Lib Server

/-! ## The discipline of the main thread -/

/-- The counter `num_conns` and the number of listeners created. -/
structure SlotView where
  count   : Nat
  created : Nat

/-- A listener is created for the slot before the last of those counted, and counted at once. -/
def slotContract : Contract serverI SlotView where
  pre g c := match c with
    | .createListener slot args =>
        g.created = g.count ∧ g.count < maxConnections ∧ slot = g.count - 1 ∧ args.connection = slot
    | .incrNumConns => g.created = g.count + 1
    | _             => True
  post g c r g' := match c, r with
    | .numConns, n           => n = g.count ∧ g' = g
    | .connection _, v       => v = 0 ∧ g' = g
    | .createListener _ _, _ => g' = { g with created := g.created + 1 }
    | .incrNumConns, _       => g' = { g with count := g.count + 1 }
    | _, _                   => g' = g

/-- Between blocks every listener created is counted. -/
def Counted (_ : ServerLoc) (g : SlotView) : Prop := g.created = g.count

/-- The search ends on the last entry looked at. -/
theorem findSlot_spec (n i openSlot : Nat) (g : SlotView) :
    wp slotContract (findSlot n i openSlot)
      (fun g' slot => g' = g ∧ slot = if n = 0 then openSlot else i + n - 1) g := by
  induction n generalizing i openSlot with
  | zero => exact ⟨rfl, rfl⟩
  | succ n ih =>
      refine ⟨trivial, ?_⟩
      rintro c _ ⟨rfl, rfl⟩
      show wp _ (findSlot n (i + 1) i) _ _
      refine wp_mono (ih (i + 1) i) ?_
      rintro _ slot ⟨rfl, rfl⟩
      refine ⟨rfl, ?_⟩
      by_cases hn : n = 0
      · subst hn
        simp
      · rw [if_neg hn, if_neg (Nat.succ_ne_zero n)]
        omega

theorem createDevices_slots (sockfd : Int) (conn : Bytes) (n : Nat) (g : SlotView) :
    wp slotContract (createDevices sockfd conn n 0 []) (fun g' _ => g' = g) g := by
  refine wp_createDevices (fun c hc => ?_) sockfd conn n 0 []
  cases c with
  | openUinput | devSetup _ _ | devCreate _ => exact ⟨trivial, fun _ _ h => h⟩
  | _ => exact hc.elim

/-- **The slot of a new listener**, and its counting. -/
theorem acceptInput_spec (fd : Int) (conn : Bytes) {g : SlotView} (hg : g.created = g.count) :
    wp slotContract (acceptInput fd conn) (fun g' _ => g'.created = g'.count) g := by
  refine ⟨trivial, ?_⟩
  rintro _ g ⟨rfl, rfl⟩
  show wp _ (if maxConnections ≤ g.count then _ else _) _ _
  by_cases hmax : maxConnections ≤ g.count
  · rw [if_pos hmax]
    exact hg
  rw [if_neg hmax]
  refine ⟨trivial, ?_⟩
  rintro _ g rfl
  show wp _ (findSlot g.count 0 0 >>= _) _ _
  refine wp_seq (findSlot_spec g.count 0 0 g) ?_
  rintro g slot ⟨rfl, hslot⟩
  have hslot' : slot = g.count - 1 := by
    rw [hslot]
    split <;> omega
  refine wp_seq (createDevices_slots fd conn _ g) ?_
  rintro g devices rfl
  refine ⟨trivial, ?_⟩
  rintro _ g rfl
  -- the listener is created with the slot found, and counted afterwards
  refine ⟨⟨hg, by omega, hslot', rfl⟩, ?_⟩
  rintro _ g rfl
  refine ⟨by simp [slotContract, hg], ?_⟩
  rintro _ g rfl
  simp [hg]

/-- **Every block of the main thread counts the listeners it creates.** -/
theorem slot_verified : Thread.Verified slotContract runServer Counted := by
  apply runServer_verified
  · intro g c hg hc
    cases c with
    | numConns | connection _ | createListener _ _ | incrNumConns => exact absurd trivial hc
    | wild => exact ⟨trivial, fun r => r.elim⟩
    | _ =>
        refine ⟨trivial, ?_⟩
        rintro r _ rfl
        exact hg
  · intro fd conn g hg
    exact acceptInput_spec fd conn hg

namespace Daemon

variable {s s' : Daemon} {e : Event} {tr : List Event}

/-! ## The invariant -/

def slotView (s : Daemon) : SlotView := ⟨s.numConns, s.listeners.length⟩

/-- The main thread keeps `slotContract`; no slot is marked; listener `m` has slot `m - 1`; and a listener that
    has left its loop is done. -/
structure SlotInv (s : Daemon) : Prop where
  main  : s.main.Ok slotContract Counted (slotView s)
  marks : ∀ v ∈ s.connections, v = 0
  slots : ∀ (m : Nat) (d : ListenerThread), s.listeners[m]? = some d →
    d.slot = m - 1 ∧ d.slot < maxConnections ∧ d.args.connection = d.slot
  done  : ∀ (m : Nat) (d : ListenerThread), s.listeners[m]? = some d → d.thread.loc.alive = false →
    d.thread.rest = .ret .exited

theorem getD_marks (h : ∀ v ∈ s.connections, v = 0) (i : Nat) : s.connections.getD i 0 = 0 := by
  rw [List.getD_eq_getElem?_getD]
  cases hi : s.connections[i]? with
  | none => rfl
  | some v => exact h v (List.mem_of_getElem? hi)

/-- A call of the main thread changes the view as the contract says. -/
theorem slotView_did {c : ServerCall} {r : c.Resp} (hmarks : ∀ v ∈ s.connections, v = 0)
    (h : Step s (.main (.did c r)) s') : slotContract.post (slotView s) c r (slotView s') := by
  have hsh := shared_call h
  have hlen : s'.listeners.length = s.listeners.length + (newListeners (.did c r)).length := by
    obtain ⟨t, sh, -, -, rfl⟩ := step_main h
    exact List.length_append
  have hcount := (Shared.serverEffect_frame hsh).numConns
  cases c with
  | numConns =>
      obtain ⟨hn, hs⟩ := Shared.check_eq.mp hsh
      exact ⟨of_decide_eq_true hn, by simp [slotView, hs, hlen, newListeners]⟩
  | connection i =>
      obtain ⟨hv, hs⟩ := Shared.check_eq.mp hsh
      exact ⟨(of_decide_eq_true hv).trans (getD_marks hmarks i), by simp [slotView, hs, hlen, newListeners]⟩
  | createListener slot args => simp [slotContract, slotView, hlen, newListeners, hcount]
  | incrNumConns => simp [slotContract, slotView, hlen, newListeners, ← Option.some.inj hsh]
  | wild => exact r.elim
  | _ => simp [slotContract, slotView, hlen, newListeners, hcount]

/-- Steps of the other threads, and jumps, leave the view alone. -/
theorem slotView_frame (h : Step s e s') (he : ∀ c r, e ≠ .main (.did c r)) : slotView s' = slotView s := by
  cases e with
  | main a =>
      cases a with
      | jump l =>
          obtain ⟨t, sh, -, hsh, rfl⟩ := step_main h
          cases hsh
          simp [slotView, newListeners]
      | did c r => exact absurd rfl (he c r)
  | sender i a =>
      have hcount : s'.numConns = s.numConns := by rw [shared_sender h]
      have hlen : s'.listeners = s.listeners := by
        obtain ⟨d, t, sh, -, -, -, rfl⟩ := step_sender h
        rfl
      rw [slotView, slotView, hcount, hlen]
  | listener i a =>
      have hcount : s'.numConns = s.numConns := by rw [shared_listener h]
      have hlen : s'.listeners.length = s.listeners.length := by
        obtain ⟨d, t, sh, -, -, -, rfl⟩ := step_listener h
        exact List.length_set
      rw [slotView, slotView, hcount, hlen]
  | locker i a =>
      have hcount : s'.numConns = s.numConns := by rw [shared_locker h]
      have hlen : s'.listeners = s.listeners := by
        obtain ⟨d, t, sh, -, -, -, rfl⟩ := step_locker h
        rfl
      rw [slotView, slotView, hcount, hlen]

/-- Nothing but 0 is ever written to `connections`. -/
theorem marks_step (hmarks : ∀ v ∈ s.connections, v = 0) (h : Step s e s') : ∀ v ∈ s'.connections, v = 0 := by
  cases e with
  | main a =>
      cases a with
      | jump l => rw [shared_main_jump h]; exact hmarks
      | did c r => rw [(Shared.serverEffect_frame (shared_call h)).connections]; exact hmarks
  | sender i a => rw [shared_sender h]; exact hmarks
  | locker i a => rw [shared_locker h]; exact hmarks
  | listener i a =>
      obtain ⟨d, t, sh, -, -, hsh, rfl⟩ := step_listener h
      cases a with
      | jump l => cases hsh; exact hmarks
      | did c r =>
          cases c with
          | clearConnection =>
              cases hsh
              intro v hv
              rcases List.mem_or_eq_of_mem_set hv with hv | hv
              · exact hmarks v hv
              · exact hv
          | write devId ie =>
              obtain ⟨dev, -, rfl⟩ := Option.map_eq_some_iff.mp hsh
              exact hmarks
          | lock => obtain ⟨-, rfl⟩ := Shared.lockListener_eq.mp hsh; exact hmarks
          | unlock => obtain ⟨-, rfl⟩ := Shared.unlockListener_eq.mp hsh; exact hmarks
          | read => cases hsh; exact hmarks

theorem slotInv_init (cfg : Config) (conn args : Bytes) : SlotInv (init cfg conn args) where
  main := slot_verified (.entry conn args) _ rfl
  marks := fun v hv => List.eq_of_mem_replicate hv
  slots := fun _ _ h => by simp [init] at h
  done := fun _ _ h => by simp [init] at h

/-- **Step lemma.** -/
theorem slotInv_step (hinv : SlotInv s) (h : Step s e s') : SlotInv s' := by
  constructor
  · refine mainOk_step h hinv.main ?_ ?_ ?_
    · rintro l rfl hl
      rw [slotView_frame h (by rintro _ _ ⟨⟩)]
      exact slot_verified l _ hl
    · rintro c r rfl -
      exact slotView_did hinv.marks h
    · intro he
      exact slotView_frame h fun c r => he _
  · exact marks_step hinv.marks h
  · intro m d' hd'
    rcases listener_cases h hd' with ⟨hd, -⟩ | ⟨a, d, -, hd, hslot, hargs, -⟩ | ⟨hm, slot, args, rfl, rfl⟩
    · exact hinv.slots m d' hd
    · rw [hslot, hargs]
      exact hinv.slots m d hd
    · -- the listener just created
      obtain ⟨t, sh, hf, -, -⟩ := step_main h
      obtain ⟨hcreated, hcount, hslot, hconn⟩ := hinv.main.pre hf
      have hm' : m = s.numConns := hm.trans hcreated
      replace hcount : s.numConns < maxConnections := hcount
      replace hslot : slot = s.numConns - 1 := hslot
      exact ⟨by rw [hslot, hm'], by show slot < _; omega, hconn⟩
  · intro m d' hd' hdead
    rcases listener_cases h hd' with ⟨hd, -⟩ | ⟨a, d, -, hd, -, -, hf⟩ | ⟨-, slot, args, -, rfl⟩
    · exact hinv.done m d' hd hdead
    · cases a with
      | jump l =>
          rw [Thread.jump_start hf] at hdead ⊢
          cases l with
          | loop packet => cases hdead
          | exited => rfl
      | did c r =>
          rw [Thread.did_loc hf] at hdead
          exact absurd (hinv.done m d hd hdead) (Thread.did_rest hf _)
    · cases hdead

theorem slotInv_run {cfg : Config} {conn args : Bytes} (h : Run Step (init cfg conn args) tr s) : SlotInv s :=
  h.invariant (slotInv_init cfg conn args) fun _ _ _ => slotInv_step

/-! ## The law of the slots -/

/-- No two live listeners own the same slot. -/
def SlotsDistinct (s : Daemon) : Prop :=
  ∀ (m n : Nat) (d d' : ListenerThread), s.listeners[m]? = some d → s.listeners[n]? = some d' →
    d.thread.loc.alive = true → d'.thread.loc.alive = true → d.slot = d'.slot → m = n

/-- A slot is marked exactly while a listener that owns it is alive. -/
def SlotsMarked (s : Daemon) : Prop :=
  ∀ i < maxConnections, s.connections.getD i 0 ≠ 0 ↔ ∃ d ∈ s.listeners, d.thread.loc.alive = true ∧ d.slot = i

/-- Every listener owns a slot of the array, no live one another's, and the marks tell which. -/
def SlotsOk (s : Daemon) : Prop :=
  (∀ d ∈ s.listeners, d.slot < maxConnections) ∧ SlotsDistinct s ∧ SlotsMarked s

/-- An input connection is given a listener. -/
def createsListener : Event → Bool
  | .main (.did (.createListener _ _) _) => true
  | _                                    => false

def NoListener (_ : Daemon) (e : Event) : Prop := createsListener e = false

/-- With no slot marked, the law holds iff no listener is alive. -/
theorem slotsOk_iff (hinv : SlotInv s) : SlotsOk s ↔ ∀ d ∈ s.listeners, d.thread.loc.alive = false := by
  have hslot : ∀ d ∈ s.listeners, d.slot < maxConnections := by
    intro d hd
    obtain ⟨m, hm⟩ := List.getElem?_of_mem hd
    exact (hinv.slots m d hm).2.1
  constructor
  · rintro ⟨-, -, hmarked⟩ d hd
    by_contra halive
    rw [Bool.not_eq_false] at halive
    exact (hmarked d.slot (hslot d hd)).mpr ⟨d, hd, halive, rfl⟩ (getD_marks hinv.marks _)
  · intro hdead
    refine ⟨hslot, fun m n d d' hd hd' halive => ?_, fun i _ => ?_⟩
    · exact absurd ((hdead d (List.mem_of_getElem? hd)).symm.trans halive) Bool.false_ne_true
    · refine iff_of_false (fun hne => hne (getD_marks hinv.marks i)) ?_
      rintro ⟨d, hd, halive, -⟩
      exact Bool.false_ne_true ((hdead d hd).symm.trans halive)

/-- **Step lemma.** The law is kept by exactly the steps that create no listener. -/
theorem slotsOk_step (hinv : SlotInv s) (hok : SlotsOk s) (h : Step s e s') : NoListener s e ↔ SlotsOk s' := by
  rw [slotsOk_iff hinv] at hok
  rw [slotsOk_iff (slotInv_step hinv h)]
  constructor
  · intro hno d' hd'
    obtain ⟨m, hm⟩ := List.getElem?_of_mem hd'
    rcases listener_cases h hm with ⟨hd, -⟩ | ⟨a, d, -, hd, -, -, hf⟩ | ⟨-, slot, args, rfl, -⟩
    · exact hok d' (List.mem_of_getElem? hd)
    · have hdead := hok d (List.mem_of_getElem? hd)
      -- a listener that has left its loop can only stay where it is
      have hret := hinv.done m d hd hdead
      cases a with
      | jump l =>
          rw [Thread.jump_rest hf] at hret
          obtain rfl : l = .exited := by injection hret
          rw [Thread.jump_start hf]
          rfl
      | did c r =>
          rw [Thread.did_loc hf]
          exact hdead
    · cases hno
  · intro hdead
    by_contra hcreate
    have hcreate : createsListener e = true := by simpa [NoListener] using hcreate
    unfold createsListener at hcreate
    split at hcreate
    · obtain ⟨t, sh, -, -, rfl⟩ := step_main h
      -- the new listener is alive
      have := hdead _ (List.mem_append_right _ (List.mem_singleton_self _))
      cases this
    · cases hcreate

/-- **The slots of the listeners.** A run passes through states that obey the law of the slots only iff no
    connection is given a listener in it. In every run listener `m` is given slot `m - 1` (0 for the first),
    which lies within the array; and no slot is shared by live listeners iff the first two are not alive at
    once. -/
theorem slots_ok_iff {cfg : Config} {conn args : Bytes} (h : Run Step (init cfg conn args) tr s) :
    ((∀ tr₁ s₁, tr₁ <+: tr → Run Step (init cfg conn args) tr₁ s₁ → SlotsOk s₁) ↔
      Run (Restrict NoListener Step) (init cfg conn args) tr s) ∧
    (∀ (m : Nat) (d : ListenerThread), s.listeners[m]? = some d →
      d.slot = m - 1 ∧ d.slot < maxConnections ∧ d.args.connection = d.slot) ∧
    (SlotsDistinct s ↔ ¬ ∃ d d', s.listeners[0]? = some d ∧ s.listeners[1]? = some d' ∧
      d.thread.loc.alive = true ∧ d'.thread.loc.alive = true) := by
  have hdet : ∀ a e b b', Step a e b → Step a e b' → b = b' := fun _ _ _ _ => step_unique
  have hslots := (slotInv_run h).slots
  have h0 : SlotsOk (init cfg conn args) :=
    (slotsOk_iff (slotInv_init cfg conn args)).mpr fun d hd => by simp [init] at hd
  refine ⟨h.restrict_iff hdet (slotInv_init cfg conn args) h0 (fun _ _ _ => slotInv_step)
    fun _ _ _ => slotsOk_step, hslots, ?_⟩
  constructor
  · rintro hdist ⟨d, d', hd, hd', halive, halive'⟩
    have hsame : d.slot = d'.slot := by rw [(hslots 0 d hd).1, (hslots 1 d' hd').1]
    exact absurd (hdist 0 1 d d' hd hd' halive halive' hsame) (by decide)
  · intro hnot m n d d' hd hd' halive halive' hsame
    rw [(hslots m d hd).1, (hslots n d' hd').1] at hsame
    by_contra hne
    -- only 0 and 1 have the same predecessor
    have hcases : (m = 0 ∧ n = 1) ∨ (m = 1 ∧ n = 0) := by omega
    rcases hcases with ⟨rfl, rfl⟩ | ⟨rfl, rfl⟩
    · exact hnot ⟨d, d', hd, hd', halive, halive'⟩
    · exact hnot ⟨d', d, hd', hd, halive', halive⟩

/-- The `NewConnection` of an input stream without devices. -/
def inputConn : Bytes := NewConnection.encode ⟨.inputStream, 0, NewConnection.noNames⟩

/-- An input connection is accepted when `n` are counted, and given `slot`. -/
def joinInput (n slot : Nat) : List Event :=
  [mainCall .accept (4 : Int), mainCall (.recvConn 4) (received inputConn), mainCall .numConns n,
    mainCall .lockListener ()] ++
  (List.range n).map (fun i => mainCall (.connection i) (0 : Int)) ++
  [mainCall .unlockListener (), mainCall (.createListener slot ⟨4, 0, [], slot⟩) (), mainCall .incrNumConns (),
    .main (.jump (.loop inputConn []))]

/-- The first two connections are given slot 0. -/
theorem slots_ok_iff_two :
    ∃ s, Run Step (init emptyConfig [] []) (boot ++ joinInput 0 0 ++ joinInput 1 0) s ∧
      s.listeners.length = 2 ∧ ∀ d ∈ s.listeners, d.slot = 0 := by
  have hexec : (execs exec (init emptyConfig [] []) (boot ++ joinInput 0 0 ++ joinInput 1 0)).map
      (·.listeners.length) = some 2 := by
    decide +kernel
  obtain ⟨s, hrun, hlen⟩ := Run.exists_of_execs hexec
  refine ⟨s, hrun, hlen, ?_⟩
  intro d hd
  obtain ⟨m, hm⟩ := List.getElem?_of_mem hd
  have hlt : m < s.listeners.length := (List.getElem?_eq_some_iff.mp hm).1
  rw [((slots_ok_iff hrun).2.1 m d hm).1]
  omega

/-- **A shared slot**: two live listeners own slot 0, and the slot is not marked. -/
theorem shared_slot :
    ∃ s, Run Step (init emptyConfig [] []) (boot ++ joinInput 0 0 ++ joinInput 1 0) s ∧
      ¬ SlotsDistinct s ∧ ¬ SlotsMarked s := by
  have hexec : (execs exec (init emptyConfig [] []) (boot ++ joinInput 0 0 ++ joinInput 1 0)).map
      (fun s => (s.connections.getD 0 0, s.listeners.map fun d => (d.slot, d.thread.loc.alive))) =
      some (0, [(0, true), (0, true)]) := by
    decide +kernel
  obtain ⟨s, hrun, hfin⟩ := Run.exists_of_execs hexec
  obtain ⟨hmark, hlisteners⟩ := Prod.mk.inj hfin
  obtain ⟨d, ds, hd, hfst, hds⟩ := List.map_eq_cons_iff.mp hlisteners
  obtain ⟨d', ds', rfl, hsnd, -⟩ := List.map_eq_cons_iff.mp hds
  obtain ⟨hslot, halive⟩ := Prod.mk.inj hfst
  obtain ⟨hslot', halive'⟩ := Prod.mk.inj hsnd
  refine ⟨s, hrun, fun hdist => ?_, fun hmarked => ?_⟩
  · have := hdist 0 1 d d' (by rw [hd]; rfl) (by rw [hd]; rfl) halive halive' (hslot.trans hslot'.symm)
    omega
  · have hmem : d ∈ s.listeners := by rw [hd]; exact List.mem_cons_self
    exact (hmarked 0 (by decide)).mpr ⟨d, hmem, halive, hslot⟩ hmark

end Daemon

end IOSwitch
