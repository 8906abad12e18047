import IOSwitch.Daemon.OneBit

/-!
# `Daemon.Mutex` — who holds the sender mutex, and that it is given back

Two disciplines meet on `sender_mutex`. Every block of a sender takes and releases it in pairs, so a sender
that has left its code does not hold it (`sender_verified`). The handlers do the same as long as no START
arrives while the daemon is sending (`FlagInv`, from `Daemon.OneBit`). Together they exclude a deadlock: a sender
that holds the mutex can always run to its `unlock` (`sender_unlocks`), so a handler can always run to its
return (`handler_returns`).

## Contents
- `mutexContract`, `sender_verified` — the senders' discipline.
- `MutexInv`, `mutexInv_run` — the invariant, for every run.
- `sender_unlocks`, `handler_returns` — progress.
- `handlers_release_mutex`, and `start_keeps_mutex`, where a START finds the daemon sending.
-/

namespace IOSwitch

open Lib Sender

/-! ## The senders' discipline -/

/-- The ghost state is whether the sender holds the mutex. It is not taken twice, and the flag is read
    under it. -/
def mutexContract : Contract senderI Bool where
  pre held c := match c with
    | .lock              => held = false
    | .unlock | .sending => held = true
    | _                  => True
  post held c _ held' := match c with
    | .lock   => held' = true
    | .unlock => held' = false
    | _       => held' = held

/-- Between blocks a sender does not hold the mutex. -/
def Unheld (_ : SenderLoc) (held : Bool) : Prop := held = false

/-- A part of the code that neither locks, unlocks nor reads the flag leaves the mutex as it is. -/
theorem wp_mutex_neutral {α : Type} {P : SenderCall → Prop} {p : Prog senderI α} (hp : p.Within P fun _ => True)
    (hP : ∀ c, P c → c ≠ .lock ∧ c ≠ .unlock ∧ c ≠ .sending) (held : Bool) :
    wp mutexContract p (fun held' _ => held' = held) held := by
  refine wp_mono (wp_neutral hp fun c hc => ?_) fun _ _ h => h.1
  obtain ⟨hl, hu, hs⟩ := hP c hc
  cases c with
  | lock => exact absurd rfl hl
  | unlock => exact absurd rfl hu
  | sending => exact absurd rfl hs
  | _ => exact ⟨trivial, fun _ _ h => h⟩

theorem setup_unheld : wp mutexContract setup (fun held l => Unheld l held) false := by
  refine ⟨trivial, ?_⟩
  rintro fd _ rfl
  show wp _ (if fd < 0 then _ else _) _ _
  split
  · rfl
  -- under the mutex: `connect_to_server`
  refine ⟨rfl, ?_⟩
  rintro _ _ rfl
  refine ⟨trivial, ?_⟩
  rintro config _ rfl
  show wp _ (connectToServer _ _ _ >>= _) _ _
  refine wp_seq (wp_mutex_neutral (connectToServer_connects _ _ _) (fun c hc => ?_) true) ?_
  · cases c <;> simp_all [SenderCall.Connects]
  rintro _ r rfl
  show wp _ (if r < 0 then _ else _) _ _
  split
  · exact ⟨rfl, fun _ _ h => h⟩
  refine ⟨rfl, ?_⟩
  rintro _ _ rfl
  refine ⟨trivial, ?_⟩
  rintro config _ rfl
  -- under the mutex again: the devices are opened
  refine ⟨rfl, ?_⟩
  rintro _ _ rfl
  refine ⟨trivial, ?_⟩
  rintro config _ rfl
  show wp _ (openDevices _ _ _ _ _ >>= _) _ _
  refine wp_seq (wp_mutex_neutral (openDevices_opens _ _ _ _ _) (fun c hc => ?_) true) ?_
  · cases c <;> simp_all [SenderCall.Opens]
  rintro _ opened rfl
  cases opened with
  | none => exact ⟨rfl, fun _ _ h => h⟩
  | some connFds =>
      refine ⟨rfl, ?_⟩
      rintro _ _ rfl
      refine ⟨trivial, ?_⟩
      rintro sent _ rfl
      show wp _ (if sent < 0 then _ else _) _ _
      split
      · rfl
      · exact ⟨trivial, fun _ _ h => h⟩

/-- **Every block of a sender gives the mutex back.** -/
theorem sender_verified : Thread.Verified mutexContract spawnSenderThread Unheld := by
  rintro l _ rfl
  cases l with
  | entry => exact setup_unheld
  | loop env => simp [spawnSenderThread, mutexContract, Unheld]
  | round env k =>
      refine wp_seq (wp_mutex_neutral (sendInputEvent_forwards _ _ _) (fun c hc => ?_) false) fun _ _ h => h
      cases c <;> simp_all [SenderCall.Forwards]
  | check env connected => simp [spawnSenderThread, mutexContract, Unheld]
  | leave env => simp [spawnSenderThread, mutexContract, Unheld]
  | exited => simp [spawnSenderThread, Unheld]

/-! ## The invariant -/

namespace Daemon

/-- Every sender keeps its discipline and is done once it has left, and nobody but the main thread and the
    senders ever holds the mutex. -/
structure MutexInv (s : Daemon) : Prop where
  senders : ∀ (i : Nat) (d : SenderThread), s.senders[i]? = some d →
    d.thread.Ok mutexContract Unheld (decide (s.senderMutex = some (.sender i)))
  done    : ∀ (i : Nat) (d : SenderThread), s.senders[i]? = some d → d.thread.loc = .exited →
    d.thread.rest = .ret .exited
  holder  : ∀ who, s.senderMutex = some who → who = .main ∨ ∃ i < s.senders.length, who = .sender i

/-- Every config that can be read is a block of memory. -/
structure ConfigInv (s : Daemon) : Prop where
  config  : s.config < s.configs.length
  senders : ∀ (i : Nat) (d : SenderThread), s.senders[i]? = some d → d.config < s.configs.length

variable {s s' : Daemon} {e : Event} {tr : List Event}

/-- What a sender's call does to the mutex is what the contract says. -/
theorem mutexContract_did {i : Nat} {c : SenderCall} {r : c.Resp} (h : Step s (.sender i (.did c r)) s') :
    mutexContract.post (decide (s.senderMutex = some (.sender i))) c r
      (decide (s'.senderMutex = some (.sender i))) := by
  obtain ⟨d, -, hsh⟩ := shared_sender_call h
  cases c with
  | lock => simp [mutexContract, (Shared.lockSender_eq.mp hsh).2]
  | unlock => simp [mutexContract, (Shared.unlockSender_eq.mp hsh).2]
  | config => simp [mutexContract, (Shared.check_eq.mp hsh).2]
  | sending => simp [mutexContract, (Shared.check_eq.mp hsh).2]
  | _ => simp [mutexContract, ← Option.some.inj hsh]

theorem holder_step (hinv : MutexInv s) (h : Step s e s') {who : Tid} (hw : s'.senderMutex = some who) :
    who = .main ∨ ∃ i < s'.senders.length, who = .sender i := by
  have hlen := senders_length_le h
  have hold : s.senderMutex = some who → who = .main ∨ ∃ i < s'.senders.length, who = .sender i := by
    intro hm
    rcases hinv.holder who hm with hwho | ⟨i, hi, hwho⟩
    · exact Or.inl hwho
    · exact Or.inr ⟨i, Nat.lt_of_lt_of_le hi hlen, hwho⟩
  by_cases htid : tidOf e = some who
  · cases e with
    | main a => exact Or.inl (Option.some.inj htid).symm
    | sender j a =>
        obtain ⟨d, t, sh, hj, -, -, -⟩ := step_sender h
        have hj' : j < s.senders.length := (List.getElem?_eq_some_iff.mp hj).1
        exact Or.inr ⟨j, Nat.lt_of_lt_of_le hj' hlen, (Option.some.inj htid).symm⟩
    | listener j a =>
        rw [shared_listener h] at hw
        exact hold hw
    | locker j a => cases htid
  · exact hold ((held_frame h htid).mp hw)

theorem mutexInv_init (cfg : Config) (conn args : Bytes) : MutexInv (init cfg conn args) :=
  ⟨fun _ _ h => by simp [init] at h, fun _ _ h => by simp [init] at h, fun _ h => by simp [init] at h⟩

/-- **Step lemma.** -/
theorem mutexInv_step (hinv : MutexInv s) (h : Step s e s') : MutexInv s' := by
  constructor
  · refine sendersOk_step (g := fun i => decide (s.senderMutex = some (.sender i))) h hinv.senders ?_ ?_ ?_ ?_
    · rintro i l rfl hl
      have hm : s'.senderMutex = s.senderMutex := by
        obtain ⟨d, t, sh, -, -, hsh, rfl⟩ := step_sender h
        cases hsh; rfl
      rw [hm]
      exact sender_verified l _ hl
    · rintro i c r rfl -
      exact mutexContract_did h
    · rintro rfl
      have hm : s'.senderMutex = s.senderMutex := by rw [← Option.some.inj (shared_call h)]
      -- the new sender's number is held by nobody
      have hfree : decide (s'.senderMutex = some (.sender s.senders.length)) = false := by
        rw [hm, decide_eq_false_iff_not]
        intro hheld
        rcases hinv.holder _ hheld with hmain | ⟨i, hi, hwho⟩
        · cases hmain
        · injection hwho with hlen
          omega
      rw [hfree]
      exact sender_verified .entry false rfl
    · intro i _ hne
      have htid : tidOf e ≠ some (.sender i) := by
        cases e with
        | sender j a => rintro ⟨⟩; exact hne a rfl
        | _ => simp [tidOf]
      simp only [held_frame h htid]
  · intro i d' hd' hloc
    rcases sender_cases h hd' with ⟨hd, -⟩ | ⟨a, d, -, hd, -, hf⟩ | ⟨-, -, rfl⟩
    · exact hinv.done i d' hd hloc
    · have hexited : spawnSenderThread .exited = .ret .exited := rfl
      exact Thread.fire_done hexited (hinv.done i d hd) hf hloc
    · cases hloc
  · exact fun who hw => holder_step hinv h hw

theorem mutexInv_run {cfg : Config} {conn args : Bytes} (h : Run Step (init cfg conn args) tr s) : MutexInv s :=
  h.invariant (mutexInv_init cfg conn args) fun _ _ _ => mutexInv_step

theorem configInv_step (hinv : ConfigInv s) (h : Step s e s') : ConfigInv s' := by
  obtain ⟨hle, hlt⟩ := configs_step h hinv.config
  refine ⟨hlt, ?_⟩
  intro i d' hd'
  rcases sender_cases h hd' with ⟨hd, -⟩ | ⟨a, d, -, hd, hc, -⟩ | ⟨-, -, rfl⟩
  · exact Nat.lt_of_lt_of_le (hinv.senders i d' hd) hle
  · rw [hc]
    exact Nat.lt_of_lt_of_le (hinv.senders i d hd) hle
  · exact Nat.lt_of_lt_of_le hinv.config hle

theorem configInv_run {cfg : Config} {conn args : Bytes} (h : Run Step (init cfg conn args) tr s) :
    ConfigInv s :=
  h.invariant ⟨by simp [init], fun _ _ h => by simp [init] at h⟩ fun _ _ _ => configInv_step

/-! ## Progress -/

/-- Every call but `lock` of a sender that holds the mutex has an answer. -/
theorem sender_call_possible {i ref : Nat} {c : SenderCall} (hc : c ≠ .lock)
    (hheld : s.senderMutex = some (.sender i)) (href : ref < s.configs.length) :
    ∃ (r : c.Resp) (sh : Shared), s.senderEffect i ref c r = some sh ∧
      if c = .unlock then sh.senderMutex = none else sh = s.toShared := by
  cases c with
  | lock => exact absurd rfl hc
  | unlock => exact ⟨(), _, Shared.unlockSender_eq.mpr ⟨hheld, rfl⟩, rfl⟩
  | config =>
      have hread : s.holdsConfig ref (s.configs[ref]).config = true := by
        simp [Shared.holdsConfig, List.getElem?_eq_getElem href]
      exact ⟨_, _, Shared.check_eq.mpr ⟨hread, rfl⟩, rfl⟩
  | sending => exact ⟨s.sending, _, Shared.check_eq.mpr ⟨by simp, rfl⟩, rfl⟩
  | poll devfd => exact ⟨⟨0, []⟩, _, rfl, rfl⟩
  | read j fd => exact ⟨.error, _, rfl, rfl⟩
  | createLock | joinLock => exact ⟨(), _, rfl, rfl⟩
  | socket | inetPton _ | connect _ _ _ | openDevice _ | sendConn _ _ | send _ _ => exact ⟨(0 : Int), _, rfl, rfl⟩

/-- **A sender that holds the mutex can run to its `unlock`**, on its own. -/
theorem sender_unlocks {i : Nat} (p : Prog senderI SenderLoc) {s : Daemon} {d : SenderThread}
    (hinv : MutexInv s) (hcfg : ConfigInv s) (hx : s.exited = false)
    (hheld : s.senderMutex = some (.sender i)) (hd : s.senders[i]? = some d) (hp : d.thread.rest = p) :
    ∃ tr s', Run Step s tr s' ∧ (∀ e ∈ tr, ∃ a, e = .sender i a) ∧ s'.senderMutex = none ∧
      s'.exited = false ∧ s'.main = s.main := by
  -- by induction on what is left of the block: it must unlock before it returns
  induction p generalizing s d with
  | ret l => exact absurd hheld (of_decide_eq_false ((hinv.senders i d hd).of_ret hp))
  | call c k ih =>
      have hpre : mutexContract.pre (decide (s.senderMutex = some (.sender i))) c :=
        ((hinv.senders i d hd).of_call hp).1
      have hlock : c ≠ .lock := by
        rintro rfl
        exact of_decide_eq_false hpre hheld
      obtain ⟨r, sh, hsh, hafter⟩ := sender_call_possible hlock hheld (hcfg.senders i d hd)
      have hstep := can_sender_call hx hd hp hsh
      by_cases hu : c = .unlock
      · rw [if_pos hu] at hafter
        exact ⟨_, _, Run.single hstep, by simp, hafter, hx, rfl⟩
      · rw [if_neg hu] at hafter
        subst hafter
        have hlt : i < s.senders.length := (List.getElem?_eq_some_iff.mp hd).1
        obtain ⟨tr, s', hrun, hev, hfree, hx', hmain⟩ :=
          ih r (mutexInv_step hinv hstep) (configInv_step hcfg hstep) hx hheld
            (List.getElem?_set_self hlt) rfl
        refine ⟨_, s', Run.cons hstep hrun, ?_, hfree, hx', hmain⟩
        rintro e (_ | ⟨_, he⟩)
        · exact ⟨_, rfl⟩
        · exact hev e he

/-- Steps of a sender are no commands. -/
theorem startLegal_of_sender {i : Nat} {a : Act senderI SenderLoc} : StartLegal s (.sender i a) := by
  rintro ⟨⟩

theorem mutexInv_append (hinv : MutexInv s) (h : Run Step s tr s') : MutexInv s' :=
  h.invariant hinv fun _ _ _ => mutexInv_step

theorem configInv_append (hinv : ConfigInv s) (h : Run Step s tr s') : ConfigInv s' :=
  h.invariant hinv fun _ _ _ => configInv_step

theorem flagInv_append {tr' : List Event} (hinv : FlagInv tr s) (h : Run (Restrict StartLegal Step) s tr' s') :
    FlagInv (tr ++ tr') s' := by
  refine Run.history (I := fun tr' s' => FlagInv (tr ++ tr') s') h ?_ ?_
  · rw [List.append_nil]; exact hinv
  · intro tr' a e b ha hs
    rw [← List.append_assoc]
    exact flagInv_step ha hs.1 hs.2

/-- A command that has a handler. -/
def Known (t : CommandType) : Prop := ∀ code, t ≠ .other code

/-- A handler in progress makes the calls of handlers, and then goes back to the accept loop or ends it. -/
def HandlerInv (s : Daemon) : Prop :=
  ∀ conn args, s.main.loc = .handle conn args → Known (CommandArgs.ofMem args).type →
    s.main.rest.Within ServerCall.Handles fun l => l.handling = false

theorem handlerInv_step (hinv : HandlerInv s) (h : Step s e s') : HandlerInv s' := by
  intro conn args hloc hknown
  rcases main_cases h with ⟨hm, -⟩ | ⟨a, -, hf⟩
  · rw [hm] at hloc ⊢
    exact hinv conn args hloc hknown
  · cases a with
    | jump l =>
        rw [Thread.jump_start hf] at hloc ⊢
        obtain rfl : l = .handle conn args := hloc
        apply Prog.within_bind (Server.commands_handles _ hknown)
        intro result _
        show ServerLoc.handling (if result = 1 then _ else _) = false
        split <;> rfl
    | did c r =>
        rw [Thread.did_loc hf] at hloc
        exact (Thread.within_did (hinv conn args hloc hknown) hf).2

theorem handlerInv_run {cfg : Config} {conn args : Bytes} (h : Run Step (init cfg conn args) tr s) :
    HandlerInv s :=
  h.invariant (fun _ _ hloc => by cases hloc) fun _ _ _ => handlerInv_step

/-- A handler's call has an answer; only `lockSender` may have to wait for the mutex. -/
theorem handler_call_possible {c : ServerCall} (hc : c.Handles) (hpre : flagContract.pre (flagView tr s) c)
    (hfree : c = .lockSender → s.senderMutex = none) :
    ∃ (r : c.Resp) (sh : Shared), s.serverEffect c r = some sh := by
  cases c with
  | lockSender => exact ⟨(), _, Shared.lockSender_eq.mpr ⟨hfree rfl, rfl⟩⟩
  | unlockSender => exact ⟨(), _, Shared.unlockSender_eq.mpr ⟨of_decide_eq_true hpre.2, rfl⟩⟩
  | sending => exact ⟨s.sending, _, Shared.check_eq.mpr ⟨by simp, rfl⟩⟩
  | loadConfig path => exact ⟨emptyConfig, _, rfl⟩
  | setSending _ | freeConfig | createSender | printf _ => exact ⟨(), _, rfl⟩
  | _ => exact absurd trivial hc

/-- Main-thread calls are no commands. -/
theorem startLegal_of_did {c : ServerCall} {r : c.Resp} : StartLegal s (mainCall c r) := by
  rintro ⟨⟩

/-- **A handler can run to its return**, with the help of at most the sender that holds the mutex. -/
theorem handler_returns (p : Prog serverI ServerLoc) {tr : List Event} {s : Daemon} (hflag : FlagInv tr s)
    (hinv : MutexInv s) (hcfg : ConfigInv s) (hx : s.exited = false) (hp : s.main.rest = p)
    (hwithin : p.Within ServerCall.Handles fun l => l.handling = false) :
    ∃ tr' s', Run (Restrict StartLegal Step) s tr' s' ∧ s'.main.loc.handling = false ∧ s'.exited = false := by
  -- by induction on what is left of the handler
  induction p generalizing tr s with
  | ret l =>
      have hlegal : StartLegal s (.main (.jump l)) := by
        intro hcmd
        cases l with
        | handle conn args => cases hwithin
        | _ => cases hcmd
      exact ⟨_, _, Run.single ⟨hlegal, can_jump hx hp⟩, hwithin, hx⟩
  | call c k ih =>
      -- a call that need not wait is made, and the rest follows
      have hgo : ∀ {tr s}, FlagInv tr s → MutexInv s → ConfigInv s → s.exited = false →
          s.main.rest = .call c k → (c = .lockSender → s.senderMutex = none) →
          ∃ tr' s', Run (Restrict StartLegal Step) s tr' s' ∧ s'.main.loc.handling = false ∧
            s'.exited = false := by
        intro tr s hflag hinv hcfg hx hp hfree
        have hpre : flagContract.pre (flagView tr s) c := (hflag.main.of_call hp).1
        obtain ⟨r, sh, hsh⟩ := handler_call_possible hwithin.1 hpre hfree
        have hstep := can_call hx hp hsh
        obtain ⟨tr', s', hrun, hdone⟩ := ih r (flagInv_step hflag startLegal_of_did hstep)
          (mutexInv_step hinv hstep) (configInv_step hcfg hstep) hx rfl (hwithin.2 r)
        exact ⟨_, s', Run.cons ⟨startLegal_of_did, hstep⟩ hrun, hdone⟩
      by_cases hfree : c = .lockSender → s.senderMutex = none
      · exact hgo hflag hinv hcfg hx hp hfree
      -- the mutex is held, not by the main thread: its holder is a sender, which runs first
      obtain ⟨rfl, hne⟩ := Classical.not_imp.mp hfree
      obtain ⟨who, hwho⟩ := Option.ne_none_iff_exists'.mp hne
      have hmain : who ≠ .main := by
        rintro rfl
        exact of_decide_eq_false (hflag.main.of_call hp).1.2 hwho
      obtain ⟨i, hi, rfl⟩ := (hinv.holder who hwho).resolve_left hmain
      obtain ⟨tr₁, s₁, hrun₁, hev, hfree₁, hx₁, hm₁⟩ :=
        sender_unlocks _ hinv hcfg hx hwho (List.getElem?_eq_getElem hi) rfl
      have hlegal₁ : Run (Restrict StartLegal Step) s tr₁ s₁ := by
        apply hrun₁.restrict
        intro e he a
        obtain ⟨act, rfl⟩ := hev e he
        exact startLegal_of_sender
      obtain ⟨tr₂, s₂, hrun₂, hdone⟩ := hgo (flagInv_append hflag hlegal₁) (mutexInv_append hinv hrun₁)
        (configInv_append hcfg hrun₁) hx₁ (hm₁ ▸ hp) fun _ => hfree₁
      exact ⟨_, s₂, hlegal₁.append hrun₂, hdone⟩

/-- **The sender mutex is given back.** In every run in which no START arrives while the daemon is sending:
    between handlers the main thread does not hold the mutex; it never waits for a mutex it holds; a sender
    that has left its code does not hold it; a handler in progress can run to its return; and every command
    can be received and handled when the main thread is at the head of its loop. -/
theorem handlers_release_mutex {cfg : Config} {conn args : Bytes}
    (h : Run (Restrict StartLegal Step) (init cfg conn args) tr s) :
    (s.main.loc.handling = false → s.senderMutex ≠ some .main) ∧
    (s.main.rest.next = some .lockSender → s.senderMutex ≠ some .main) ∧
    (∀ (i : Nat) (d : SenderThread), s.senders[i]? = some d → d.thread.loc = .exited →
      s.senderMutex ≠ some (.sender i)) ∧
    (∀ conn args, s.exited = false → s.main.loc = .handle conn args → Known (CommandArgs.ofMem args).type →
      ∃ tr' s', Run (Restrict StartLegal Step) s tr' s' ∧ s'.main.loc.handling = false) ∧
    (∀ conn args m, s.exited = false → s.main = .start runServer (.loop conn args) →
      m.length = CommandArgs.size → Known (CommandArgs.ofMem m).type →
      ((CommandArgs.ofMem m).type = .start → s.sending = false) →
      ∃ tr' s', Run (Restrict StartLegal Step) s
        (receive m ++ .main (.jump (.handle (overlay conn commandConn) (overlay args m))) :: tr') s' ∧
        s'.main.loc.handling = false) := by
  have hflag := flagInv_run h
  have hinv := mutexInv_run h.of_restrict
  have hcfg := configInv_run h.of_restrict
  refine ⟨fun hidle => ?_, fun hnext => ?_, fun i d hd hloc => ?_, fun conn args hx hloc hknown => ?_,
    fun conn args m hx hm hlen hknown hlegal => ?_⟩
  · exact of_decide_eq_false (hflag.settled hidle).1
  · obtain ⟨k, hk⟩ := Prog.next_eq hnext
    exact of_decide_eq_false (hflag.main.of_call hk).1.2
  · exact of_decide_eq_false ((hinv.senders i d hd).of_ret (hinv.done i d hd hloc))
  · have hwithin := handlerInv_run h.of_restrict conn args hloc hknown
    obtain ⟨tr', s', hrun, hidle, -⟩ := handler_returns _ hflag hinv hcfg hx rfl hwithin
    exact ⟨tr', s', hrun, hidle⟩
  · -- the command arrives, is dispatched, and its handler runs to its return
    have hreceive : Run (Restrict StartLegal Step) s (receive m) _ :=
      (run_receive hx hm hlen).restrict fun e he a => by
        simp only [receive, List.mem_cons, List.not_mem_nil, or_false] at he
        rcases he with rfl | rfl | rfl <;> exact startLegal_of_did
    have hjump := can_jump (s := { s with
      main := ⟨.loop conn args, .ret (.handle (overlay conn commandConn) (overlay args m))⟩ }) hx rfl
    have hdispatch := hreceive.append (Run.single ⟨?_, hjump⟩)
    · have hwithin := handlerInv_run (h.append hdispatch).of_restrict _ _ rfl
        (by rw [ofMem_overlay hlen]; exact hknown)
      obtain ⟨tr', s', hrun, hidle, -⟩ := handler_returns _ (flagInv_run (h.append hdispatch))
        (mutexInv_run (h.append hdispatch).of_restrict) (configInv_run (h.append hdispatch).of_restrict)
        hx rfl hwithin
      refine ⟨tr', s', ?_, hidle⟩
      have hall := hdispatch.append hrun
      rwa [List.append_assoc, List.singleton_append] at hall
    · intro hcmd
      have ht : (CommandArgs.ofMem m).type = .start := by
        rw [← ofMem_overlay hlen]
        exact Option.some.inj hcmd
      exact hlegal ht

/-- One START. -/
theorem handlers_release_mutex_start :
    ∃ s, Run (Restrict StartLegal Step) (init emptyConfig [] []) (boot ++ order .start startEvents) s ∧
      s.senderMutex ≠ some .main := by
  have hexec : (execs (guarded StartLegal exec) (init emptyConfig [] [])
      (boot ++ order .start startEvents)).map (·.main.loc.handling) = some false := by
    decide +kernel
  obtain ⟨s, hrun, hloc⟩ := Run.exists_of_execs_guarded hexec
  exact ⟨s, hrun, (handlers_release_mutex hrun).1 hloc⟩

/-- **A START while the daemon is sending keeps the mutex**: its handler returns with the mutex held, and the
    handler of the next command waits for it. -/
theorem start_keeps_mutex :
    (∃ s, Run Step (init emptyConfig [] [])
      (boot ++ order .start startEvents ++ order .start refusedEvents) s ∧
      s.main.loc.handling = false ∧ s.senderMutex = some .main) ∧
    ∃ s, Run Step (init emptyConfig [] [])
      (boot ++ order .start startEvents ++ order .start refusedEvents ++ receive (plainArgs .stop) ++
        [.main (.jump (.handle commandConn (plainArgs .stop)))]) s ∧
      s.senderMutex = some .main ∧ s.main.rest.next = some .lockSender := by
  constructor
  · have hexec : (execs exec (init emptyConfig [] [])
        (boot ++ order .start startEvents ++ order .start refusedEvents)).map
        (fun s => (s.main.loc.handling, s.senderMutex)) = some (false, some .main) := by
      decide +kernel
    obtain ⟨s, hrun, hfin⟩ := Run.exists_of_execs hexec
    obtain ⟨hidle, hheld⟩ := Prod.mk.inj hfin
    exact ⟨s, hrun, hidle, hheld⟩
  · have hexec : (execs exec (init emptyConfig [] [])
        (boot ++ order .start startEvents ++ order .start refusedEvents ++ receive (plainArgs .stop) ++
          [.main (.jump (.handle commandConn (plainArgs .stop)))])).map
        (fun s => (s.senderMutex, s.main.rest.next)) = some (some .main, some .lockSender) := by
      decide +kernel
    obtain ⟨s, hrun, hfin⟩ := Run.exists_of_execs hexec
    obtain ⟨hheld, hnext⟩ := Prod.mk.inj hfin
    exact ⟨s, hrun, hheld, hnext⟩

end Daemon

end IOSwitch
