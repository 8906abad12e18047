import IOSwitch.Daemon.Script

/-!
# `Daemon.Devices` — the devices that outlive their connection

`run_server` creates the devices of a connection and hands them to the listener it creates; `destroy_device`
is called nowhere, and a listener that ends leaves its devices behind. So every device ever created exists for
good, and the devices that exist are those of the live listeners exactly as long as no listener that owns one
has ended (`devices_ok_iff`).

## Contents
- `deviceContract`, `device_verified` — a listener is given the devices created since the last one.
- `OwnInv`, `ownInv_run` — every device that was handed out exists and has one owner.
- `DevicesOk`, `devices_ok_iff`, `device_leaked`.
-/

namespace IOSwitch

open Lib Server

/-! ## The discipline of the main thread -/

/-- The calls of `run_server` from the first device of a connection to the creation of its listener. -/
def ServerCall.Equips : ServerCall → Prop
  | openUinput | devSetup _ _ | devCreate _ | unlockListener | createListener _ _ => True
  | _                                                                             => False

/-- How many devices listeners have been given, and for every device whether `UI_DEV_CREATE` was done. -/
structure DeviceView where
  owned   : Nat
  created : List Bool

/-- Every device belongs to a listener. -/
def DeviceView.Settled (g : DeviceView) : Prop := g.owned = g.created.length

/-- The array `devices` holds the devices that no listener has, and holds nothing else but failed `open`s. -/
def Made (g : DeviceView) (devices : List VirtualDevice) : Prop :=
  (∀ n < g.created.length, g.owned ≤ n → ∃ dev ∈ devices, dev.devfd = (n : Int)) ∧
  ∀ dev ∈ devices, ∀ n : Nat, dev.devfd = (n : Int) → g.owned ≤ n ∧ g.created[n]? = some true

/-- A listener is created with the devices that no listener has; other calls are made when there are none. -/
def deviceContract : Contract serverI DeviceView where
  pre g c := match c with
    | .openUinput | .devSetup _ _ | .devCreate _ | .unlockListener => g.owned ≤ g.created.length
    | .createListener _ args => g.owned ≤ g.created.length ∧ Made g args.devices
    | _ => g.Settled
  post g c r g' := match c, r with
    | .openUinput, fd =>
        (fd < 0 ∧ g' = g) ∨ (fd = g.created.length ∧ g' = { g with created := g.created ++ [false] })
    | .devCreate fd, _ =>
        g' = if fd < 0 then g else { g with created := g.created.modify fd.toNat fun _ => true }
    | .createListener _ _, _ => g' = { g with owned := g.created.length }
    | _, _ => g' = g

variable {g : DeviceView}

/-- A failed `open` adds no device. -/
theorem Made.failed {devices : List VirtualDevice} {dev : VirtualDevice} (h : Made g devices) (hneg : dev.devfd < 0) :
    Made g (devices ++ [dev]) := by
  obtain ⟨hall, honly⟩ := h
  constructor
  · intro n hn hown
    obtain ⟨d, hd, heq⟩ := hall n hn hown
    exact ⟨d, List.mem_append_left _ hd, heq⟩
  · intro d hd n heq
    rcases List.mem_append.mp hd with hd | hd
    · exact honly d hd n heq
    · rw [List.mem_singleton.mp hd] at heq
      omega

/-- A device that was created is added. -/
theorem Made.added {devices : List VirtualDevice} {dev : VirtualDevice} (h : Made g devices)
    (hle : g.owned ≤ g.created.length) (hfd : dev.devfd = (g.created.length : Int)) :
    Made { g with created := g.created ++ [true] } (devices ++ [dev]) := by
  obtain ⟨hall, honly⟩ := h
  constructor
  · intro n hn hown
    by_cases hnew : n = g.created.length
    · exact ⟨dev, List.mem_append_right _ (List.mem_singleton_self _), by rw [hfd, hnew]⟩
    · have hlt : n < g.created.length := by simp at hn; omega
      obtain ⟨d, hd, heq⟩ := hall n hlt hown
      exact ⟨d, List.mem_append_left _ hd, heq⟩
  · intro d hd n heq
    rcases List.mem_append.mp hd with hd | hd
    · obtain ⟨hown, hcreated⟩ := honly d hd n heq
      have hlt : n < g.created.length := (List.getElem?_eq_some_iff.mp hcreated).1
      exact ⟨hown, by rw [List.getElem?_append_left hlt]; exact hcreated⟩
    · rw [List.mem_singleton.mp hd, hfd] at heq
      obtain rfl := Int.natCast_inj.mp heq
      exact ⟨hle, by simp⟩

/-- **`create_device`** adds the device it creates to those the connection has. -/
theorem createDevice_made (sockfd : Int) (name : Bytes) {devices : List VirtualDevice}
    (hle : g.owned ≤ g.created.length) (hmade : Made g devices) :
    wp deviceContract (createDevice sockfd name)
      (fun g' dev => g'.owned ≤ g'.created.length ∧ Made g' (devices ++ [dev])) g := by
  refine ⟨hle, ?_⟩
  rintro fd g' (⟨hneg, rfl⟩ | ⟨hfd, rfl⟩)
  · refine ⟨hle, ?_⟩
    rintro _ _ rfl
    refine ⟨hle, ?_⟩
    rintro _ _ rfl
    rw [if_pos hneg]
    exact ⟨hle, hmade.failed hneg⟩
  · have hle' : g.owned ≤ (g.created ++ [false]).length := by
      rw [List.length_append]
      exact Nat.le_add_right_of_le hle
    refine ⟨hle', ?_⟩
    rintro _ _ rfl
    refine ⟨hle', ?_⟩
    rintro _ _ rfl
    have hpos : ¬ fd < 0 := by
      rw [hfd]
      exact Int.not_lt.mpr (Int.natCast_nonneg _)
    rw [if_neg hpos, hfd, Int.toNat_natCast]
    simp only [modify_last]
    refine ⟨?_, hmade.added hle rfl⟩
    simpa using hle'

/-- **The loop over the devices** of a connection. -/
theorem createDevices_made (sockfd : Int) (conn : Bytes) (n i : Nat) {devices : List VirtualDevice}
    (hle : g.owned ≤ g.created.length) (hmade : Made g devices) :
    wp deviceContract (createDevices sockfd conn n i devices)
      (fun g' ds => g'.owned ≤ g'.created.length ∧ Made g' ds) g := by
  induction n generalizing g i devices with
  | zero => exact ⟨hle, hmade⟩
  | succ n ih =>
      apply wp_seq (createDevice_made sockfd _ hle hmade)
      intro g' dev hdev
      exact ih (i + 1) hdev.1 hdev.2

theorem findSlot_settled (n i openSlot : Nat) (hg : g.Settled) :
    wp deviceContract (findSlot n i openSlot) (fun g' _ => g' = g) g := by
  apply wp_findSlot
  intro i
  exact ⟨hg, fun _ _ h => h⟩

/-- **A new listener** is given every device that has none. -/
theorem acceptInput_settled (fd : Int) (conn : Bytes) (hg : g.Settled) :
    wp deviceContract (acceptInput fd conn) (fun g' _ => g'.Settled) g := by
  refine ⟨hg, ?_⟩
  rintro numConns g rfl
  show wp _ (if maxConnections ≤ numConns then _ else _) _ _
  split
  · exact hg
  refine ⟨hg, ?_⟩
  rintro _ g rfl
  show wp _ (findSlot numConns 0 0 >>= _) _ _
  apply wp_seq (findSlot_settled numConns 0 0 hg)
  rintro g slot rfl
  have hmade : Made g [] := by
    refine ⟨fun n hn hown => ?_, by simp⟩
    unfold DeviceView.Settled at hg
    omega
  apply wp_seq (createDevices_made fd conn _ 0 (Nat.le_of_eq hg) hmade)
  rintro g devices ⟨hle, hmade⟩
  refine ⟨hle, ?_⟩
  rintro _ g rfl
  refine ⟨⟨hle, hmade⟩, ?_⟩
  rintro _ _ rfl
  refine ⟨rfl, ?_⟩
  rintro _ _ rfl
  rfl

/-- **Between the blocks of the main thread every device has an owner.** -/
theorem device_verified : Thread.Verified deviceContract runServer fun _ => DeviceView.Settled := by
  apply runServer_verified
  · intro g c hg hc
    cases c with
    | numConns | connection _ | lockListener | unlockListener | openUinput | devSetup _ _ | devCreate _
    | createListener _ _ | incrNumConns => exact absurd trivial hc
    | wild => exact ⟨hg, fun r => r.elim⟩
    | _ =>
        refine ⟨hg, ?_⟩
        rintro r _ rfl
        exact hg
  · intro fd conn g hg
    exact acceptInput_settled fd conn hg

/-- No call of the main thread takes a device away. -/
theorem created_kept {c : ServerCall} {r : c.Resp} {g' : DeviceView} (hpost : deviceContract.post g c r g') {n : Nat}
    (hn : g.created[n]? = some true) : g'.created[n]? = some true := by
  have hlt : n < g.created.length := (List.getElem?_eq_some_iff.mp hn).1
  cases c with
  | openUinput =>
      rcases hpost with ⟨-, rfl⟩ | ⟨-, rfl⟩
      · exact hn
      · rw [List.getElem?_append_left hlt]
        exact hn
  | devCreate fd =>
      obtain rfl := hpost
      split
      · exact hn
      · simp [List.getElem?_modify, hn]
  | createListener slot args =>
      obtain rfl := hpost
      exact hn
  | wild => exact r.elim
  | _ =>
      obtain rfl := hpost
      exact hn

namespace Daemon

variable {s s' : Daemon} {e : Event} {tr : List Event} {owned : Nat}

/-! ## Devices and their owners -/

/-- Device `n` was created; nothing in the code destroys one. -/
def DeviceExists (s : Daemon) (n : Nat) : Prop := (s.uinput.map (·.created))[n]? = some true

/-- Device `n` is one of the devices in the listener's arguments. -/
def Owns (d : ListenerThread) (n : Nat) : Prop := ∃ dev ∈ d.args.devices, dev.devfd = (n : Int)

def deviceView (owned : Nat) (s : Daemon) : DeviceView := ⟨owned, s.uinput.map (·.created)⟩

/-- The main thread keeps `deviceContract`; each of the first `owned` devices has an owner, and what a listener
    owns exists, is among them and is owned by no other. -/
structure OwnInv (owned : Nat) (s : Daemon) : Prop where
  main   : s.main.Ok deviceContract (fun _ => DeviceView.Settled) (deviceView owned s)
  owners : ∀ n < owned, ∃ d ∈ s.listeners, Owns d n
  owns   : ∀ (m : Nat) (d : ListenerThread), s.listeners[m]? = some d → ∀ n, Owns d n → n < owned ∧ DeviceExists s n
  one    : ∀ (m m' : Nat) (d d' : ListenerThread), s.listeners[m]? = some d → s.listeners[m']? = some d' →
    ∀ n, Owns d n → Owns d' n → m = m'

/-- Only the calls that create a device change which devices there are. -/
theorem created_frame (h : Step s e s') (he : ∀ c r, e = .main (.did c r) → ¬ c.MakesDevice) :
    s'.uinput.map (·.created) = s.uinput.map (·.created) := by
  cases e with
  | main a =>
      cases a with
      | jump l => rw [shared_main_jump h]
      | did c r => rw [(Shared.serverEffect_frame (shared_call h)).uinput (he c r rfl)]
  | sender i a => rw [shared_sender h]
  | locker i a => rw [shared_locker h]
  | listener i a =>
      obtain ⟨d, t, sh, -, -, hsh, rfl⟩ := step_listener h
      cases a with
      | jump l => cases hsh; rfl
      | did c r =>
          cases c with
          | write devId ie =>
              obtain ⟨dev, -, rfl⟩ := Option.map_eq_some_iff.mp hsh
              show (s.onDevice _ _).map _ = _
              unfold Shared.onDevice
              split
              · rfl
              · have hkeep := map_modify s.uinput dev.devfd.toNat (fun u => { u with log := u.log ++ [ie] })
                  (·.created) id fun _ => rfl
                rw [hkeep, List.modify_id]
          | lock => obtain ⟨-, rfl⟩ := Shared.lockListener_eq.mp hsh; rfl
          | unlock => obtain ⟨-, rfl⟩ := Shared.unlockListener_eq.mp hsh; rfl
          | clearConnection | read => cases hsh; rfl

/-- The devices handed out after a step. -/
def ownedAfter (owned : Nat) (s : Daemon) : Event → Nat
  | .main (.did (.createListener _ _) _) => s.uinput.length
  | _                                    => owned

/-- A call of the main thread changes the view as the contract says. -/
theorem deviceView_did {c : ServerCall} {r : c.Resp} (h : Step s (.main (.did c r)) s') :
    deviceContract.post (deviceView owned s) c r (deviceView (ownedAfter owned s (.main (.did c r))) s') := by
  have hsh := shared_call h
  have hquiet : ¬ c.MakesDevice → s'.uinput = s.uinput := (Shared.serverEffect_frame hsh).uinput
  cases c with
  | openUinput =>
      rcases Shared.openUinput_eq hsh with ⟨hneg, hs⟩ | ⟨hfd, hs⟩
      · exact Or.inl ⟨hneg, by simp [deviceView, ownedAfter, hs]⟩
      · exact Or.inr ⟨by simpa [deviceView] using hfd, by simp [deviceView, ownedAfter, hs]⟩
  | devSetup fd n =>
      have hkeep := map_modify s.uinput fd.toNat (fun u => { u with name := n }) (·.created) id fun _ => rfl
      rw [List.modify_id] at hkeep
      show deviceView owned s' = deviceView owned s
      unfold deviceView
      rw [← Option.some.inj hsh]
      by_cases hfd : fd < 0
      · simp only [Shared.onDevice_of_neg hfd]
      · simp only [Shared.onDevice_of_nonneg (Int.not_lt.mp hfd), hkeep]
  | devCreate fd =>
      have hset := map_modify s.uinput fd.toNat (fun u => { u with created := true }) (·.created)
        (fun _ => true) fun _ => rfl
      show deviceView owned s' = if fd < 0 then deviceView owned s else _
      unfold deviceView
      rw [← Option.some.inj hsh]
      by_cases hfd : fd < 0
      · simp only [Shared.onDevice_of_neg hfd, if_pos hfd]
      · simp only [Shared.onDevice_of_nonneg (Int.not_lt.mp hfd), if_neg hfd, hset]
  | createListener slot args =>
      show deviceView _ s' = _
      simp [deviceView, ownedAfter, hquiet id]
  | wild => exact r.elim
  | _ =>
      show deviceView owned s' = deviceView owned s
      rw [deviceView, deviceView, hquiet id]

/-- What exists stays. -/
theorem exists_step {n : Nat} (h : Step s e s') (hn : DeviceExists s n) : DeviceExists s' n := by
  by_cases he : ∃ c r, e = .main (.did c r)
  · obtain ⟨c, r, rfl⟩ := he
    have hdid : deviceContract.post (deviceView 0 s) c r (deviceView _ s') := deviceView_did h
    exact created_kept hdid hn
  · unfold DeviceExists
    rw [created_frame h fun c r hc _ => he ⟨c, r, hc⟩]
    exact hn

theorem ownInv_init (cfg : Config) (conn args : Bytes) : OwnInv 0 (init cfg conn args) where
  main := device_verified (.entry conn args) _ rfl
  owners := fun n hn => absurd hn (Nat.not_lt_zero n)
  owns := fun _ _ hd => by simp [init] at hd
  one := fun _ _ _ _ hd => by simp [init] at hd

/-- What a listener is given when it is created. -/
theorem made_of_create {slot : Nat} {args : ListenerArgs} (hinv : OwnInv owned s)
    (h : Step s (.main (.did (.createListener slot args) ())) s') :
    owned ≤ s.uinput.length ∧ Made (deviceView owned s) args.devices := by
  obtain ⟨t, sh, hf, -, -⟩ := step_main h
  obtain ⟨hle, hmade⟩ := hinv.main.pre hf
  exact ⟨by simpa [deviceView] using hle, hmade⟩

theorem le_ownedAfter (hinv : OwnInv owned s) (h : Step s e s') : owned ≤ ownedAfter owned s e := by
  unfold ownedAfter
  split
  · exact (made_of_create hinv h).1
  · exact Nat.le_refl _

/-- A listener owns what it owned before the step, or the step created it for devices without an owner. -/
theorem owns_cases (hinv : OwnInv owned s) (h : Step s e s') {m : Nat} {d' : ListenerThread}
    (hd' : s'.listeners[m]? = some d') :
    (∃ d, s.listeners[m]? = some d ∧ ∀ n, Owns d' n ↔ Owns d n) ∨
    (m = s.listeners.length ∧ ∀ n, Owns d' n → owned ≤ n ∧ n < ownedAfter owned s e ∧ DeviceExists s n) := by
  rcases listener_cases h hd' with ⟨hd, -⟩ | ⟨a, d, -, hd, -, hargs, -⟩ | ⟨hm, slot, args, rfl, rfl⟩
  · exact Or.inl ⟨d', hd, fun _ => Iff.rfl⟩
  · exact Or.inl ⟨d, hd, fun n => by unfold Owns; rw [hargs]⟩
  · refine Or.inr ⟨hm, ?_⟩
    rintro n ⟨dev, hdev, hfd⟩
    obtain ⟨hown, hexists⟩ := (made_of_create hinv h).2.2 dev hdev n hfd
    have hlt : n < s.uinput.length := by simpa [deviceView] using (List.getElem?_eq_some_iff.mp hexists).1
    exact ⟨hown, hlt, hexists⟩

/-- **Step lemma.** -/
theorem ownInv_step (hinv : OwnInv owned s) (h : Step s e s') : OwnInv (ownedAfter owned s e) s' := by
  have hle := le_ownedAfter hinv h
  constructor
  · apply mainOk_step h hinv.main
    · intro l he hl
      subst he
      have hframe : deviceView (ownedAfter owned s (.main (.jump l))) s' = deviceView owned s := by
        unfold deviceView
        rw [created_frame h (by simp)]
        rfl
      rw [hframe]
      exact device_verified l _ hl
    · intro c r he _
      subst he
      exact deviceView_did h
    · intro he
      have hsame : ownedAfter owned s e = owned := by
        cases e with
        | main a => exact absurd rfl (he a)
        | _ => rfl
      unfold deviceView
      rw [hsame, created_frame h fun c r hc => absurd hc (he _)]
  · intro n hn
    by_cases hold : n < owned
    · obtain ⟨d, hd, howns⟩ := hinv.owners n hold
      obtain ⟨m, hm⟩ := List.getElem?_of_mem hd
      obtain ⟨d', hd', hargs, -⟩ := listener_next h hm
      refine ⟨d', List.mem_of_getElem? hd', ?_⟩
      unfold Owns
      rw [hargs]
      exact howns
    · -- a device handed out by this step: the new listener owns it
      unfold ownedAfter at hn
      split at hn
      · rename_i slot args r
        obtain ⟨-, hall, -⟩ := made_of_create hinv h
        obtain ⟨t, sh, -, -, rfl⟩ := step_main h
        obtain ⟨dev, hdev, hfd⟩ := hall n (by simpa [deviceView] using hn) (Nat.not_lt.mp hold)
        exact ⟨_, List.mem_append_right _ (List.mem_singleton_self _), dev, hdev, hfd⟩
      · exact absurd hn hold
  · intro m d' hd' n howns
    rcases owns_cases hinv h hd' with ⟨d, hd, hsame⟩ | ⟨-, hnew⟩
    · obtain ⟨hn, hexists⟩ := hinv.owns m d hd n ((hsame n).mp howns)
      exact ⟨Nat.lt_of_lt_of_le hn hle, exists_step h hexists⟩
    · obtain ⟨-, hn, hexists⟩ := hnew n howns
      exact ⟨hn, exists_step h hexists⟩
  · intro m m' d d' hd hd' n howns howns'
    rcases owns_cases hinv h hd with ⟨d₀, hd₀, hsame⟩ | ⟨hm, hnew⟩
    · rcases owns_cases hinv h hd' with ⟨d₁, hd₁, hsame'⟩ | ⟨hm', hnew'⟩
      · exact hinv.one m m' d₀ d₁ hd₀ hd₁ n ((hsame n).mp howns) ((hsame' n).mp howns')
      · have hold := (hinv.owns m d₀ hd₀ n ((hsame n).mp howns)).1
        exact absurd hold (Nat.not_lt.mpr (hnew' n howns').1)
    · rcases owns_cases hinv h hd' with ⟨d₁, hd₁, hsame'⟩ | ⟨hm', -⟩
      · have hold := (hinv.owns m' d₁ hd₁ n ((hsame' n).mp howns')).1
        exact absurd hold (Nat.not_lt.mpr (hnew n howns).1)
      · exact hm.trans hm'.symm

theorem ownInv_run {cfg : Config} {conn args : Bytes} (h : Run Step (init cfg conn args) tr s) :
    ∃ owned, OwnInv owned s :=
  h.invariant (I := fun s => ∃ owned, OwnInv owned s) ⟨0, ownInv_init cfg conn args⟩
    fun _ _ _ ⟨_, hinv⟩ hs => ⟨_, ownInv_step hinv hs⟩

/-! ## The law of the devices -/

/-- The main thread is creating the devices of a connection that has no listener yet. -/
def Equipping (s : Daemon) : Prop := ∃ c, s.main.rest.next = some c ∧ ServerCall.Equips c

/-- The devices of the live listeners exist, and a device that exists belongs to a live listener, or to the
    connection that is being equipped. -/
def DevicesOk (s : Daemon) : Prop :=
  (∀ d ∈ s.listeners, d.thread.loc.alive = true → ∀ n, Owns d n → DeviceExists s n) ∧
  ∀ n, DeviceExists s n →
    (∃ d ∈ s.listeners, d.thread.loc.alive = true ∧ Owns d n) ∨ (Equipping s ∧ ∀ d ∈ s.listeners, ¬ Owns d n)

/-- No listener that owns a device ends. -/
def KeepsDevices (s : Daemon) (e : Event) : Prop :=
  ∀ (m : Nat) (d : ListenerThread), e = .listener m (.jump .exited) → s.listeners[m]? = some d → ∀ n, ¬ Owns d n

/-- Devices that no listener has are about to be given to one. -/
theorem OwnInv.equipping (hinv : OwnInv owned s) (hne : owned ≠ s.uinput.length) : Equipping s := by
  have hset : ¬ (deviceView owned s).Settled := by simpa [DeviceView.Settled, deviceView] using hne
  cases hr : s.main.rest with
  | ret l => exact absurd (hinv.main.of_ret hr) hset
  | call c k =>
      have hpre := (hinv.main.of_call hr).1
      refine ⟨c, by rw [hr]; rfl, ?_⟩
      cases c with
      | openUinput | devSetup _ _ | devCreate _ | unlockListener | createListener _ _ => trivial
      | _ => exact absurd hpre hset

/-- The law holds iff no listener that has ended owns a device. -/
theorem devicesOk_iff (hinv : OwnInv owned s) :
    DevicesOk s ↔ ∀ d ∈ s.listeners, d.thread.loc.alive = false → ∀ n, ¬ Owns d n := by
  constructor
  · rintro ⟨-, howned⟩ d hd hdead n howns
    obtain ⟨m, hm⟩ := List.getElem?_of_mem hd
    rcases howned n (hinv.owns m d hm n howns).2 with ⟨d', hd', halive, howns'⟩ | ⟨-, hnone⟩
    · obtain ⟨m', hm'⟩ := List.getElem?_of_mem hd'
      -- a device has one owner, and this one is dead
      obtain rfl := hinv.one m m' d d' hm hm' n howns howns'
      obtain rfl : d = d' := Option.some.inj (hm.symm.trans hm')
      rw [hdead] at halive
      cases halive
    · exact hnone d hd howns
  · intro hdead
    constructor
    · intro d hd _ n howns
      obtain ⟨m, hm⟩ := List.getElem?_of_mem hd
      exact (hinv.owns m d hm n howns).2
    · intro n hn
      by_cases hlt : n < owned
      · obtain ⟨d, hd, howns⟩ := hinv.owners n hlt
        refine Or.inl ⟨d, hd, ?_, howns⟩
        by_contra halive
        exact hdead d hd (by simpa using halive) n howns
      · have hlen : n < s.uinput.length := by simpa using (List.getElem?_eq_some_iff.mp hn).1
        refine Or.inr ⟨hinv.equipping (by omega), ?_⟩
        intro d hd howns
        obtain ⟨m, hm⟩ := List.getElem?_of_mem hd
        exact hlt (hinv.owns m d hm n howns).1

/-- **Step lemma.** The law is kept by exactly the steps that end no listener with a device. -/
theorem devicesOk_step (hinv : OwnInv owned s) (hok : DevicesOk s) (h : Step s e s') :
    KeepsDevices s e ↔ DevicesOk s' := by
  rw [devicesOk_iff hinv] at hok
  rw [devicesOk_iff (ownInv_step hinv h)]
  constructor
  · intro hkeep d' hd' hdead n howns
    obtain ⟨m, hm⟩ := List.getElem?_of_mem hd'
    rcases listener_cases h hm with ⟨hd, -⟩ | ⟨a, d, he, hd, -, hargs, hf⟩ | ⟨-, slot, args, -, rfl⟩
    · exact hok d' (List.mem_of_getElem? hd) hdead n howns
    · have howns : Owns d n := by
        unfold Owns at *
        rw [← hargs]
        exact howns
      cases a with
      | jump l =>
          rw [Thread.jump_start hf] at hdead
          cases l with
          | loop packet => cases hdead
          | exited => exact hkeep m d he hd n howns
      | did c r =>
          rw [Thread.did_loc hf] at hdead
          exact hok d (List.mem_of_getElem? hd) hdead n howns
    · cases hdead
  · intro hall m d he hd n howns
    obtain ⟨d', hd', hargs, ⟨-, hne⟩ | ⟨a, ha, hf⟩⟩ := listener_next h hd
    · exact hne _ he
    · obtain rfl : a = .jump .exited := by
        rw [he] at ha
        injection ha with _ ha
        exact ha.symm
      have hdead : d'.thread.loc.alive = false := by
        rw [Thread.jump_start hf]
        rfl
      have howns' : Owns d' n := by
        unfold Owns at *
        rw [hargs]
        exact howns
      exact hall d' (List.mem_of_getElem? hd') hdead n howns'

/-- **The devices.** A run passes through states that obey the law only iff no listener that owns a device ends
    in it. -/
theorem devices_ok_iff {cfg : Config} {conn args : Bytes} (h : Run Step (init cfg conn args) tr s) :
    (∀ tr₁ s₁, tr₁ <+: tr → Run Step (init cfg conn args) tr₁ s₁ → DevicesOk s₁) ↔
      Run (Restrict KeepsDevices Step) (init cfg conn args) tr s := by
  have hdet : ∀ a e b b', Step a e b → Step a e b' → b = b' := fun _ _ _ _ => step_unique
  have h0 : DevicesOk (init cfg conn args) :=
    (devicesOk_iff (ownInv_init cfg conn args)).mpr fun d hd => by simp [init] at hd
  refine h.restrict_iff (I := fun s => ∃ owned, OwnInv owned s) hdet ⟨0, ownInv_init cfg conn args⟩ h0 ?_ ?_
  · rintro a e b ⟨owned, hinv⟩ hs
    exact ⟨_, ownInv_step hinv hs⟩
  · rintro a e b ⟨owned, hinv⟩ hok hs
    exact devicesOk_step hinv hok hs

/-- The `NewConnection` of an input stream with one device, `m`. -/
def mouseConn : Bytes :=
  NewConnection.encode ((⟨.inputStream, 1, NewConnection.noNames⟩ : NewConnection).copyName 0 [109])

/-- The device that is created for it. -/
def mouse : VirtualDevice :=
  ⟨4, 0, strcat (strcpy (List.replicate 80 0) devPrefix) [109], strcpy (List.replicate 64 0) [109]⟩

/-- The connection is accepted and its listener created. -/
def joinMouse : List Event :=
  [mainCall .accept (4 : Int), mainCall (.recvConn 4) (received mouseConn), mainCall .numConns (0 : Nat),
    mainCall .lockListener (), mainCall .openUinput (0 : Int), mainCall (.devSetup 0 (devPrefix ++ [109])) (),
    mainCall (.devCreate 0) (), mainCall .unlockListener (), mainCall (.createListener 0 ⟨4, 1, [mouse], 0⟩) (),
    mainCall .incrNumConns (), .main (.jump (.loop mouseConn []))]

/-- While its listener lives, the device exists and the law holds. -/
theorem devices_ok_iff_join :
    ∃ s, Run Step (init emptyConfig [] []) (boot ++ joinMouse) s ∧ DeviceExists s 0 ∧ DevicesOk s := by
  have hexec : (execs exec (init emptyConfig [] []) (boot ++ joinMouse)).map
      (fun s => s.uinput.map (·.created)) = some [true] := by
    decide +kernel
  obtain ⟨s, hrun, hfin⟩ := Run.exists_of_execs hexec
  have hkeeps : ∀ e ∈ boot ++ joinMouse, ∀ a, KeepsDevices a e := by
    intro e he a m d heq
    subst heq
    simp [boot, joinMouse] at he
  refine ⟨s, hrun, by rw [DeviceExists, hfin]; rfl, ?_⟩
  exact (devices_ok_iff hrun).mpr (hrun.restrict hkeeps) _ s (List.prefix_refl _) hrun

/-- **A leaked device**: the connection is gone, and its device exists. -/
theorem device_leaked :
    ∃ s, Run Step (init emptyConfig [] []) (boot ++ joinMouse ++ leaveInput 0) s ∧
      DeviceExists s 0 ∧ (∀ d ∈ s.listeners, d.thread.loc.alive = false) ∧ ¬ DevicesOk s := by
  have hexec : (execs exec (init emptyConfig [] []) (boot ++ joinMouse ++ leaveInput 0)).map
      (fun s => (s.uinput.map (·.created), s.listeners.map (·.thread.loc.alive), s.main.rest.next)) =
      some ([true], [false], some .accept) := by
    decide +kernel
  obtain ⟨s, hrun, hfin⟩ := Run.exists_of_execs hexec
  simp only [Prod.mk.injEq] at hfin
  obtain ⟨hcreated, hlisteners, hnext⟩ := hfin
  have hexists : DeviceExists s 0 := by rw [DeviceExists, hcreated]; rfl
  have hdead : ∀ d ∈ s.listeners, d.thread.loc.alive = false := by
    intro d hd
    have hmem := List.mem_map_of_mem (f := fun d : ListenerThread => d.thread.loc.alive) hd
    rw [hlisteners] at hmem
    exact List.mem_singleton.mp hmem
  refine ⟨s, hrun, hexists, hdead, ?_⟩
  rintro ⟨-, howned⟩
  rcases howned 0 hexists with ⟨d, hd, halive, -⟩ | ⟨⟨c, hc, hequips⟩, -⟩
  · exact absurd halive (by simp [hdead d hd])
  · rw [hnext] at hc
    obtain rfl := Option.some.inj hc
    exact hequips

end Daemon

end IOSwitch
