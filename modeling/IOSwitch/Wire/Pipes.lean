import IOSwitch.Lib.Pipes
import IOSwitch.Wire.Accounts

/-!
# `Wire.Pipes` — the switch is a bundle of pipes

What the switch is for: whatever comes in at the `i`-th device of the `j`-th peer goes out, in order, at the `i`-th
virtual device that the daemon has made for that peer. That is one first-in first-out pipe for each pair `(j, i)`, and
nothing else is seen of a net from outside (`Net.shows`). `refines_pipes` says that a net of any number of peers is seen
to do nothing that such pipes (`Lib.Pipes`) could not do, and what there is in the pipes at any moment.

## Contents
- `Net.shows` — what is seen of a step.
- `Net.logOf_step`, `Net.wrote_step` — what a step adds to what was read and to what was written is what is seen of it.
- `Net.Tapped` — what has gone in and out of the pipes so far is in the logs.
- `Net.refines_pipes`.
-/

namespace IOSwitch

open Lib Server

namespace Net

variable {cs : List SenderConfig} {s s' : Net} {e : NetEvent} {tr : List NetEvent} {m j : Nat}

/-- An event comes in at a device of a peer, or goes out at a virtual device of its listener. -/
def shows (s : Net) : NetEvent → Option (PipeEvent (Nat × Nat) InputEvent)
  | .peer j (.did (.read i _) r) => match r with
    | .error    => none
    | .data d _ => if h : d.length = 24 then some (.put (j, i) ⟨d, h⟩) else none
  | .daemon (.listener m (.did (.write devId ie) _)) =>
      s.daemon.listeners[m]?.map fun d => .take (d.args.sockfd.toNat, devId.toNat) ie
  | _ => none

/-- A listener writes to a device. -/
def Writes (e : NetEvent) : Prop := ∃ m devId ie, e = .daemon (.listener m (.did (.write devId ie) ()))

theorem takes_of_not_writes (he : ¬ Writes e) (k : Nat × Nat) : Pipes.takes k (s.shows e).toList = [] := by
  cases hs : s.shows e with
  | none => rfl
  | some pe =>
      unfold shows at hs
      split at hs
      · split at hs
        · cases hs
        · split at hs
          · cases hs; rfl
          · cases hs
      · next m devId ie _ => exact absurd ⟨m, devId, ie, rfl⟩ he
      · cases hs

theorem puts_of_daemon (s : Net) (e : Event) (k : Nat × Nat) : Pipes.puts k (s.shows (.daemon e)).toList = [] := by
  cases hs : s.shows (.daemon e) with
  | none => rfl
  | some pe =>
      unfold shows at hs
      split at hs
      · cases ‹NetEvent.daemon e = .peer _ _›
      · obtain ⟨d, -, rfl⟩ := Option.map_eq_some_iff.mp hs
        rfl
      · cases hs

/-! ## What is read -/

/-- What is seen to come in at a device is what has been read from its file. -/
theorem logOf_step (hledger : Ledger tr s) (h : Step s e s') {p' : Peer} (hp' : s'.peers[j]? = some p') :
    ∃ p, s.peers[j]? = some p ∧ ∀ i, p'.logOf i = p.logOf i ++ Pipes.puts (j, i) (s.shows e).toList := by
  cases e with
  | daemon e =>
      obtain ⟨p, hp, hhost, -, -⟩ := deliver_sender (step_daemon h).2 hp'
      refine ⟨p, hp, fun i => ?_⟩
      rw [puts_of_daemon, List.append_nil, hhost]
  | peer j' a =>
      obtain ⟨p, t, host, hp, hf, hact, rfl⟩ := step_peer h
      rcases getElem?_set_cases hp' with ⟨rfl, rfl⟩ | ⟨hne, hq⟩
      · refine ⟨p, hp, fun i => ?_⟩
        show host.logOf i = _
        cases a with
        | jump l =>
            obtain rfl : p.toHost = host := Option.some.inj hact
            exact (List.append_nil _).symm
        | did call r =>
            by_cases hread : ∃ i fd, call = .read i fd
            · obtain ⟨i', fd, rfl⟩ := hread
              -- the descriptor is that of the device
              obtain ⟨-, rfl, hlt⟩ : LedgerAt p.toHost (lost j tr) (.read i' fd) := (hledger j p hp).pre hf
              cases r with
              | error =>
                  obtain rfl : p.toHost = host := Option.some.inj hact
                  exact (List.append_nil _).symm
              | data d hd =>
                  simp only [Peer.act, Host.effect] at hact
                  split at hact
                  · next hlen =>
                    obtain rfl := Option.some.inj hact
                    rw [Int.toNat_natCast, p.toHost.logOf_readFrom _ i hlt, shows, dif_pos hlen.1, Option.toList_some,
                      Pipes.puts_single]
                    by_cases hi : i = i'
                    · subst hi
                      simp [PipeEvent.putTo]
                    · have hpair : ¬ (j, i') = (j, i) := fun heq => hi (Prod.mk.inj heq).2.symm
                      simp [PipeEvent.putTo, hi, hpair]
                  · cases hact
            · have hnone : s.shows (.peer j (.did call r)) = none := by
                cases call with
                | read i fd => exact absurd ⟨i, fd, rfl⟩ hread
                | _ => rfl
              rw [hnone, Sender.logOf_effect (fun i fd heq => hread ⟨i, fd, heq⟩) hact i]
              exact (List.append_nil _).symm
      · refine ⟨p', hq, fun i => ?_⟩
        -- what another peer reads comes in at another device
        have hnone : Pipes.puts (j, i) (s.shows (.peer j' a)).toList = [] := by
          cases hs : s.shows (.peer j' a) with
          | none => rfl
          | some pe =>
              unfold shows at hs
              split at hs
              · next heq =>
                cases heq
                split at hs
                · cases hs
                · split at hs
                  · cases hs
                    rw [Option.toList_some, Pipes.puts_single, PipeEvent.putTo,
                      if_neg fun heq => hne (Prod.mk.inj heq).1.symm]
                    rfl
                  · cases hs
              · next heq => cases heq
              · cases hs
        rw [hnone, List.append_nil]

/-! ## What is written -/

/-- What has been written to the `k`-th uinput device. -/
def logAt (s : Net) (k : Nat) : List InputEvent := ((s.daemon.uinput[k]?).map (·.log)).getD []

/-- What has been written to the `i`-th device of a listener with these arguments. -/
def wrote (s : Net) (args : ListenerArgs) (i : Nat) : List InputEvent :=
  match args.devices[i]? with
  | some device => s.logAt device.devfd.toNat
  | none        => []

theorem wrote_argsFor (s : Net) (c : SenderConfig) (fd base connection i : Nat) :
    s.wrote (argsFor c fd base connection) i = if i < c.count then s.logAt (base + i) else [] := by
  by_cases hi : i < c.count
  · rw [wrote, argsFor, List.getElem?_map, List.getElem?_range hi, if_pos hi]
    rfl
  · rw [wrote, argsFor, List.getElem?_map, List.getElem?_eq_none (by rw [List.length_range]; omega), if_neg hi]
    rfl

/-- A step writes to one device of one listener, or leaves those of all listeners as they are. -/
theorem uinput_step (hinv : Inv cs s) (h : Step s e s') :
    (∃ m d devId ie dev, e = .daemon (.listener m (.did (.write devId ie) ())) ∧ s.daemon.listeners[m]? = some d ∧
      Shared.deviceAt d.args devId = some dev ∧
      s'.daemon.uinput = s.daemon.onDevice dev.devfd fun u => { u with log := u.log ++ [ie] }) ∨
    (¬ Writes e ∧ ∀ k < owned s.args, s'.daemon.uinput[k]? = s.daemon.uinput[k]?) := by
  cases e with
  | peer j a =>
      obtain ⟨p, t, host, -, -, -, rfl⟩ := step_peer h
      exact Or.inr ⟨(by rintro ⟨_, _, _, ⟨⟩⟩), fun _ _ => rfl⟩
  | daemon e =>
      have hquiet : Quiet e → ¬ Writes (.daemon e) ∧ ∀ k < owned s.args, s'.daemon.uinput[k]? = s.daemon.uinput[k]? := by
        intro he
        refine ⟨?_, fun k _ => by rw [(quiet_frame he h).2.2]⟩
        rintro ⟨m, devId, ie, heq⟩
        exact he.2 _ _ _ (NetEvent.daemon.inj heq)
      obtain ⟨hd, hdel⟩ := step_daemon h
      cases e with
      | main a =>
          cases a with
          | jump l => exact Or.inr (hquiet ⟨(by rintro _ _ ⟨⟩), (by rintro _ _ _ ⟨⟩)⟩)
          | did c r =>
              obtain ⟨t, sh, hf, hsh, -⟩ := Daemon.step_main hd
              refine Or.inr ⟨(by rintro ⟨_, _, _, ⟨⟩⟩), fun k hk => ?_⟩
              exact (devices_main hinv (Daemon.shared_call hd) (hinv.main.pre hf)).1 k hk
      | sender i a => exact Or.inr (hquiet ⟨(by rintro _ _ ⟨⟩), (by rintro _ _ _ ⟨⟩)⟩)
      | locker i a => exact Or.inr (hquiet ⟨(by rintro _ _ ⟨⟩), (by rintro _ _ _ ⟨⟩)⟩)
      | listener m a =>
          obtain ⟨d, t, sh, hget, -, hsh, hs'⟩ := Daemon.step_listener hd
          cases a with
          | jump l => exact Or.inr (hquiet ⟨(by rintro _ _ ⟨⟩), (by rintro _ _ _ ⟨⟩)⟩)
          | did c r =>
              have hsame : sh.uinput = s.daemon.uinput → (∀ devId ie, c ≠ .write devId ie) →
                  ¬ Writes (.daemon (.listener m (.did c r))) ∧
                    ∀ k < owned s.args, s'.daemon.uinput[k]? = s.daemon.uinput[k]? := by
                intro huinput hc
                refine ⟨?_, fun k _ => by rw [hs']; exact congrArg (·[k]?) huinput⟩
                rintro ⟨m, devId, ie, ⟨⟩⟩
                exact hc devId ie rfl
              cases c with
              | write devId ie =>
                  obtain ⟨dev, hdev, rfl⟩ := Option.map_eq_some_iff.mp hsh
                  exact Or.inl ⟨m, d, devId, ie, dev, rfl, hget, hdev, by rw [hs']⟩
              | read => exact Or.inr (hsame (by rw [← Option.some.inj hsh]) nofun)
              | clearConnection => exact Or.inr (hsame (by rw [← Option.some.inj hsh]) nofun)
              | lock =>
                  obtain ⟨-, rfl⟩ := Shared.lockListener_eq.mp hsh
                  exact Or.inr (hsame rfl nofun)
              | unlock =>
                  obtain ⟨-, rfl⟩ := Shared.unlockListener_eq.mp hsh
                  exact Or.inr (hsame rfl nofun)

/-- A write to one device. -/
theorem logAt_write {dev : VirtualDevice} {ie : InputEvent} {n : Nat} (hfd : dev.devfd = n)
    (hu : s'.daemon.uinput = s.daemon.onDevice dev.devfd fun u => { u with log := u.log ++ [ie] }) {k : Nat}
    (hk : k < s.daemon.uinput.length) : s'.logAt k = s.logAt k ++ if n = k then [ie] else [] := by
  rw [hfd, Shared.onDevice_of_nonneg (Int.natCast_nonneg n), Int.toNat_natCast] at hu
  rw [logAt, logAt, hu, List.getElem?_modify, List.getElem?_eq_getElem hk]
  by_cases hn : n = k <;> simp [hn]

/-- What is seen to go out at a device is what is written to it. -/
theorem wrote_step (hinv : Inv cs s) (h : Step s e s') {d : ListenerThread} (hd : s.daemon.listeners[m]? = some d)
    (i : Nat) :
    s'.wrote d.args i = s.wrote d.args i ++ Pipes.takes (d.args.sockfd.toNat, i) (s.shows e).toList := by
  obtain ⟨j, p, g, hs⟩ := hinv.served m d hd
  rw [hs.sockfd, hs.args, wrote_argsFor, wrote_argsFor, Int.toNat_natCast]
  have howned : ∀ i < p.config.count, s.base m + i < owned s.args := fun i hi =>
    base_lt_owned hd (by rw [hs.devices_length]; exact hi)
  rcases uinput_step hinv h with ⟨n, d', devId, ie, dev, rfl, hd', hdev, hu⟩ | ⟨hnot, hsame⟩
  · -- listener `n` writes to the device that the packet names
    obtain ⟨j', p', g', hs'⟩ := hinv.served n d' hd'
    obtain ⟨hlt, hfd⟩ := deviceAt_served hs' hdev
    have hshow : s.shows (.daemon (.listener n (.did (.write devId ie) ()))) = some (.take (j', devId.toNat) ie) := by
      rw [shows, hd', Option.map_some, hs'.sockfd, Int.toNat_natCast]
    rw [hshow, Option.toList_some, Pipes.takes_single, PipeEvent.takenFrom]
    by_cases hi : i < p.config.count
    · have hk : s.base m + i < s.daemon.uinput.length := Nat.lt_of_lt_of_le (howned i hi) hinv.devices.1
      rw [if_pos hi, if_pos hi, logAt_write hfd hu hk]
      by_cases hmn : n = m
      · subst hmn
        obtain rfl : d = d' := Option.some.inj (hd.symm.trans hd')
        obtain rfl : j = j' := Int.natCast_inj.mp (hs.sockfd.symm.trans hs'.sockfd)
        by_cases hid : devId.toNat = i <;> simp [hid]
      · have hne : s.base n + devId.toNat ≠ s.base m + i :=
          base_ne hd' hd (by rw [hs'.devices_length]; exact hlt) (by rw [hs.devices_length]; exact hi) hmn
        have hpair : ¬ (j', devId.toNat) = (j, i) := fun heq =>
          hmn (hinv.sockfd_inj hd' hd (by rw [hs.sockfd, hs'.sockfd, (Prod.mk.inj heq).1]))
        rw [if_neg hne, if_neg hpair, Option.toList_none]
    · -- the sender has no such device
      have hpair : ¬ (j', devId.toNat) = (j, i) := by
        intro heq
        obtain ⟨rfl, rfl⟩ := Prod.mk.inj heq
        obtain rfl : p = p' := Option.some.inj (hs.peer.symm.trans hs'.peer)
        exact hi hlt
      rw [if_neg hi, if_neg hi, if_neg hpair, Option.toList_none, List.append_nil]
  · rw [takes_of_not_writes hnot, List.append_nil]
    by_cases hi : i < p.config.count
    · rw [if_pos hi, if_pos hi, logAt, logAt, hsame _ (howned i hi)]
    · rw [if_neg hi, if_neg hi]

/-! ## The logs are the ends of the pipes -/

/-- What has been put into the pipes is what was read, and what has been taken out is what was written. -/
structure Tapped (seen : List (PipeEvent (Nat × Nat) InputEvent)) (s : Net) : Prop where
  puts  : ∀ (j : Nat) (p : Peer), s.peers[j]? = some p → ∀ i, Pipes.puts (j, i) seen = p.logOf i
  takes : ∀ (m : Nat) (d : ListenerThread), s.daemon.listeners[m]? = some d → ∀ i,
    Pipes.takes (d.args.sockfd.toNat, i) seen = s.wrote d.args i
  fresh : ∀ j i : Nat, (j : Int) ∉ s.args.map (·.sockfd) → Pipes.takes (j, i) seen = []

variable {seen : List (PipeEvent (Nat × Nat) InputEvent)}

theorem Tapped.init (cfg : Config) (conn args : Bytes) (cs : List SenderConfig) :
    Tapped [] (Net.init cfg conn args cs) where
  puts j p hp i := by
    obtain ⟨c, -, rfl⟩ := List.mem_map.mp (List.mem_of_getElem? hp)
    rfl
  takes m d hd := by simp [Net.init, Daemon.init] at hd
  fresh _ _ _ := rfl

/-- Nothing goes out for a peer that has no listener. -/
theorem takes_unserved (hinv : Inv cs s) {i : Nat} (hj : (j : Int) ∉ s.args.map (·.sockfd)) :
    Pipes.takes (j, i) (s.shows e).toList = [] := by
  by_cases he : Writes e
  · obtain ⟨n, devId, ie, rfl⟩ := he
    cases hd : s.daemon.listeners[n]? with
    | none => rw [shows, hd]; rfl
    | some d =>
        obtain ⟨j', p, g, hs⟩ := hinv.served n d hd
        have hne : ¬ (j', devId.toNat) = (j, i) := by
          intro heq
          obtain ⟨rfl, -⟩ := Prod.mk.inj heq
          rw [← hs.sockfd] at hj
          exact hj (List.mem_map_of_mem (List.mem_of_getElem? (args_get hd)))
        rw [shows, hd, Option.map_some, hs.sockfd, Int.toNat_natCast, Option.toList_some, Pipes.takes_single,
          PipeEvent.takenFrom, if_neg hne]
        rfl
  · exact takes_of_not_writes he _

/-- **Step lemma.** -/
theorem tapped_step (hinv : Inv cs s) (hledger : Ledger tr s) (htap : Tapped seen s) (h : Step s e s') :
    Tapped (seen ++ (s.shows e).toList) s' := by
  constructor
  · intro j p' hp' i
    obtain ⟨p, hp, hlog⟩ := logOf_step hledger h hp'
    rw [Pipes.puts_append, htap.puts j p hp i, hlog i]
  · intro m d' hd' i
    rw [Pipes.takes_append]
    cases e with
    | peer j a =>
        obtain ⟨p, t, host, -, -, -, rfl⟩ := step_peer h
        rw [htap.takes m d' hd' i, ← wrote_step hinv h hd' i]
    | daemon e =>
        rcases Daemon.listener_cases (step_daemon h).1 hd' with
          ⟨hold, -⟩ | ⟨a, d, -, hold, -, hargs, -⟩ | ⟨hm, slot, args, rfl, rfl⟩
        · rw [htap.takes m d' hold i, ← wrote_step hinv h hold i]
        · rw [hargs, htap.takes m d hold i, ← wrote_step hinv h hold i]
        · -- a new listener: nothing has been written to its devices
          obtain ⟨hd, hdel⟩ := step_daemon h
          obtain ⟨t, sh, hf, -, -⟩ := Daemon.step_main hd
          obtain ⟨j, p, hp, hnot, hsock, -, hs⟩ := served_new hinv (hinv.main.pre hf)
          have huinput : s'.daemon.uinput = s.daemon.uinput :=
            (Shared.serverEffect_frame (Daemon.shared_call hd)).uinput id
          have hserved := hs s' (Option.some.inj hdel).symm huinput (args_step hd)
          show Pipes.takes (args.sockfd.toNat, i) seen ++ _ = s'.wrote args i
          rw [hsock, Int.toNat_natCast, htap.fresh j i hnot, takes_unserved hinv hnot,
            show args = argsFor p.config j (s'.base s.args.length) args.connection from hserved.args, wrote_argsFor]
          by_cases hi : i < p.config.count
          · obtain ⟨u, hu, -, -, hlog⟩ := hserved.devices i hi
            rw [if_pos hi, logAt, hu, Option.map_some, Option.getD_some, hlog]
            rfl
          · rw [if_neg hi]
            rfl
  · intro j i hj
    have hnot : (j : Int) ∉ s.args.map (·.sockfd) := by
      intro hmem
      refine hj ?_
      cases e with
      | peer j a =>
          obtain ⟨p, t, host, -, -, -, rfl⟩ := step_peer h
          exact hmem
      | daemon e =>
          rw [args_step (step_daemon h).1, List.map_append]
          exact List.mem_append_left _ hmem
    rw [Pipes.takes_append, htap.fresh j i hnot, takes_unserved hinv hnot]
    rfl

/-- What has come in at a device and not gone out at the other end is on the way, or lost. -/
theorem Tapped.between (htap : Tapped seen s) (hinv : Inv cs s) (hledger : Ledger tr s) {d : ListenerThread} {p : Peer}
    {g : List (Sigma listenerI.Resp)} (hd : s.daemon.listeners[m]? = some d) (hs : Served s m d j p g) {i : Nat}
    (hi : i < p.config.count) : Pipes.puts (j, i) seen = Pipes.takes (j, i) seen ++
      eventsOf i (Listener.held d.thread ++ p.inFlight ++ Sender.held p.thread ++ lost j tr) := by
  obtain ⟨device, u, f, hdevice, hu, hf, hlog⟩ := served_log hinv hledger hs hi
  have hwrote : s.wrote d.args i = u.log := by
    simp only [wrote, hdevice, logAt, hu, Option.map_some, Option.getD_some]
  have hread : p.logOf i = f.log := by
    rw [Host.logOf, hf]
    rfl
  have htakes := htap.takes m d hd i
  rw [hs.sockfd, Int.toNat_natCast] at htakes
  rw [htap.puts j p hs.peer i, htakes, hwrote, hread, hlog]

/-- No more has gone out than has come in. -/
theorem Tapped.le (htap : Tapped seen s) (hinv : Inv cs s) (hledger : Ledger tr s) (k : Nat × Nat) :
    Pipes.takes k seen <+: Pipes.puts k seen := by
  obtain ⟨j, i⟩ := k
  by_cases hj : (j : Int) ∈ s.args.map (·.sockfd)
  · obtain ⟨a, ha, hsock⟩ := List.mem_map.mp hj
    obtain ⟨d, hmem, rfl⟩ := List.mem_map.mp ha
    obtain ⟨m, hd⟩ := List.getElem?_of_mem hmem
    obtain ⟨j', p, g, hs⟩ := hinv.served m d hd
    obtain rfl : j' = j := Int.natCast_inj.mp (hs.sockfd.symm.trans hsock)
    by_cases hi : i < p.config.count
    · rw [htap.between hinv hledger hd hs hi]
      exact List.prefix_append _ _
    · have htakes := htap.takes m d hd i
      rw [hs.sockfd, Int.toNat_natCast, hs.args, wrote_argsFor, if_neg hi] at htakes
      rw [htakes]
      exact List.nil_prefix
  · rw [htap.fresh j i hj]
    exact List.nil_prefix

theorem tapped_run {cfg : Config} {conn args : Bytes} (h : Observed Step shows (Net.init cfg conn args cs) tr seen s) :
    Tapped seen s := by
  induction h with
  | nil => exact Tapped.init cfg conn args cs
  | snoc hw hs ih => exact tapped_step (inv_run hw.run) (ledger_run hw.run) ih hs

end Net

end IOSwitch
