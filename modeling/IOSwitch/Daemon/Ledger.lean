import IOSwitch.Daemon.Script
import IOSwitch.Server.Resources

/-!
# `Daemon.Ledger` — what the threads hold

The daemon with an account of what is open or allocated, and whose it is: the listening socket, the connection that the
main thread serves, with its devices, until a listener is given it, what a sender has got and not given back, and the
display of a lock thread. The senders run with their statements (`spawnSenderThreadHeap`); neither `run_server` nor
`spawn_listener_thread` closes anything.

The daemon with its account does what the daemon does (`daemon_run`), and can do all of it (`exists_run`).
-/

namespace IOSwitch

open Lib Server

/-- Whose a resource is. A connection that the main thread still has when it accepts the next one is nobody's. -/
inductive Owner where
  | server
  | main
  | sender (i : Nat)
  | listener (m : Nat)
  | locker (j : Nat)
  | nobody
  deriving DecidableEq

/-- The daemon, whether a connection was accepted that no listener has been given, the senders with their statements,
    and what everyone holds. -/
structure Ledger where
  daemon  : Daemon
  serving : Bool
  senders : List (Thread heapI SenderLoc)
  holds   : Owner → List Resource

/-- What the daemon does, or a statement of a sender. -/
inductive LedgerEvent where
  | call (e : Event)
  | stmt (i : Nat) (s : Stmt)

namespace Ledger

/-- Whether a connection is being served after an event. -/
def servingAfter (serving : Bool) : Event → Bool
  | .main (.did .accept fd)               => decide (0 ≤ (show Int from fd))
  | .main (.did (.createListener _ _) _) => false
  | _                                     => serving

/-- What everyone holds after an event of the daemon. -/
def holdsAfter (m : Ledger) : Event → Owner → List Resource
  | .main (.did .accept fd) =>
      Function.update (Function.update m.holds .nobody (m.holds .nobody ++ m.holds .main)) .main (gain [] fd (.socket fd))
  | .main (.did .openUinput fd) => Function.update m.holds .main (gain (m.holds .main) fd (.uinput fd))
  -- the listener is given the connection and its devices
  | .main (.did (.createListener _ _) _) =>
      Function.update (Function.update m.holds (.listener m.daemon.listeners.length) (m.holds .main)) .main []
  -- `start` has allocated the arguments
  | .main (.did .createSender _) => Function.update m.holds (.sender m.daemon.senders.length) [.senderArgs]
  | .sender i (.did c r) => Function.update m.holds (.sender i) (heldAfter (m.holds (.sender i)) (.inl c) r)
  | .locker j (.did .openDisplay true) => Function.update m.holds (.locker j) (m.holds (.locker j) ++ [.display])
  | .locker j (.did .closeDisplay _) => Function.update m.holds (.locker j) ((m.holds (.locker j)).erase .display)
  | _ => m.holds

/-- The senders after an event of the daemon, if they can take part in it. -/
def follow (m : Ledger) : Event → Option (List (Thread heapI SenderLoc))
  | .sender i a =>
      m.senders[i]?.bind fun t => (t.fire spawnSenderThreadHeap a.visible).map fun t' => m.senders.set i t'
  | .main (.did .createSender _) => some (m.senders ++ [.start spawnSenderThreadHeap .entry])
  | _ => some m.senders

/-- The state after an event, if the event is possible. -/
def exec (m : Ledger) : LedgerEvent → Option Ledger
  | .call e =>
      (m.daemon.exec e).bind fun s =>
      (m.follow e).map fun ts => ⟨s, servingAfter m.serving e, ts, m.holdsAfter e⟩
  | .stmt i s =>
      if m.daemon.exited then none
      else m.senders[i]?.bind fun t => (t.fire spawnSenderThreadHeap (.silent s)).map fun t' =>
        { m with
          senders := m.senders.set i t'
          holds   := Function.update m.holds (.sender i) (heldAfter (m.holds (.sender i)) (.inr s) ()) }

def Step (m : Ledger) (e : LedgerEvent) (m' : Ledger) : Prop := m.exec e = some m'

/-- The daemon when `run_server` is called, with its listening socket. -/
def init (cfg : Config) (conn args : Bytes) : Ledger where
  daemon  := .init cfg conn args
  serving := false
  senders := []
  holds   := Function.update (fun _ => []) .server [.listening]

variable {m m' : Ledger}

/-! ## Inversion -/

theorem step_call {e : Event} (h : Step m (.call e) m') :
    ∃ s ts, Daemon.Step m.daemon e s ∧ m.follow e = some ts ∧
      m' = ⟨s, servingAfter m.serving e, ts, m.holdsAfter e⟩ := by
  obtain ⟨s, hs, h⟩ := Option.bind_eq_some_iff.mp h
  obtain ⟨ts, hts, rfl⟩ := Option.map_eq_some_iff.mp h
  exact ⟨s, ts, hs, hts, rfl⟩

theorem step_stmt {i : Nat} {st : Stmt} (h : Step m (.stmt i st) m') :
    ∃ t t', m.senders[i]? = some t ∧ t.fire spawnSenderThreadHeap (.silent st) = some t' ∧
      m' = { m with
        senders := m.senders.set i t'
        holds   := Function.update m.holds (.sender i) (heldAfter (m.holds (.sender i)) (.inr st) ()) } := by
  simp only [Step, exec] at h
  split at h
  · cases h
  · obtain ⟨t, ht, h⟩ := Option.bind_eq_some_iff.mp h
    obtain ⟨t', hf, rfl⟩ := Option.map_eq_some_iff.mp h
    exact ⟨t, t', ht, hf, rfl⟩

theorem step_unique {e : LedgerEvent} {m₁ m₂ : Ledger} (h₁ : Step m e m₁) (h₂ : Step m e m₂) : m₁ = m₂ :=
  Option.some.inj (h₁.symm.trans h₂)

/-- A sender after a step is one from before that did not move, one that did, or the one just created. -/
theorem follow_cases {e : Event} {ts : List (Thread heapI SenderLoc)} (h : m.follow e = some ts) {i : Nat}
    {t' : Thread heapI SenderLoc} (ht' : ts[i]? = some t') :
    (m.senders[i]? = some t' ∧ ∀ a, e ≠ .sender i a) ∨
    (∃ a t, e = .sender i a ∧ m.senders[i]? = some t ∧ t.fire spawnSenderThreadHeap a.visible = some t') ∨
    (i = m.senders.length ∧ e = .main (.did .createSender ()) ∧ t' = .start spawnSenderThreadHeap .entry) := by
  unfold follow at h
  split at h
  · rename_i j a
    obtain ⟨t, ht, h⟩ := Option.bind_eq_some_iff.mp h
    obtain ⟨u, hu, rfl⟩ := Option.map_eq_some_iff.mp h
    rcases getElem?_set_cases ht' with ⟨rfl, rfl⟩ | ⟨hij, hold⟩
    · exact .inr (.inl ⟨a, t, rfl, ht, hu⟩)
    · refine .inl ⟨hold, ?_⟩
      rintro a' ⟨⟩
      exact hij rfl
  · cases h
    rcases getElem?_append_cases ht' with hold | ⟨hi, hnew⟩
    · exact .inl ⟨hold, by rintro a ⟨⟩⟩
    · obtain ⟨hz, hnew⟩ := List.getElem?_eq_some_iff.mp hnew
      have hi' : i - m.senders.length = 0 := by simpa using hz
      refine .inr (.inr ⟨by omega, rfl, ?_⟩)
      simpa using hnew.symm
  · rename_i hsender _
    cases h
    exact .inl ⟨ht', fun a he => hsender i a he⟩

/-! ## The account is one of the daemon -/

/-- Without their statements, the senders are those of the daemon. -/
def Faithful (m : Ledger) : Prop := m.senders.map Thread.erase = m.daemon.senders.map SenderThread.thread

/-- The sender of the daemon that goes with one with statements. -/
theorem Faithful.sender (hm : Faithful m) {i : Nat} {d : SenderThread} (hd : m.daemon.senders[i]? = some d) :
    ∃ t, m.senders[i]? = some t ∧ t.erase = d.thread := by
  have hmap := congrArg (·[i]?) hm
  simp only [List.getElem?_map, hd, Option.map_some] at hmap
  exact Option.map_eq_some_iff.mp hmap

/-- Actions of the main thread other than the creation of a sender leave the senders alone. -/
theorem newSenders_other {a : Act serverI ServerLoc} (ha : a ≠ .did .createSender ()) :
    m.follow (.main a) = some m.senders ∧ m.daemon.newSenders a = [] := by
  constructor
  · unfold follow
    split
    · rename_i heq
      cases heq
    · rename_i r heq
      injection heq with heq
      exact absurd heq ha
    · rfl
  · unfold Daemon.newSenders
    split
    · exact absurd rfl ha
    · rfl

theorem spawnSenderThread_erase : (fun l => (spawnSenderThreadHeap l).erase) = spawnSenderThread :=
  funext spawnSenderThreadHeap_erase

/-- **Every step** of the daemon with its account is one of the daemon, or none. -/
theorem faithful_step {e : LedgerEvent} (hm : Faithful m) (h : Step m e m') : Faithful m' := by
  cases e with
  | stmt i st =>
      obtain ⟨t, t', ht, hf, rfl⟩ := step_stmt h
      show (m.senders.set i t').map Thread.erase = m.daemon.senders.map _
      obtain ⟨hlt, rfl⟩ := List.getElem?_eq_some_iff.mp ht
      rw [List.map_set, Thread.fire_silent hf, ← List.map_set, List.set_getElem_self hlt]
      exact hm
  | call e =>
      obtain ⟨s, ts, hs, hts, rfl⟩ := step_call h
      show ts.map Thread.erase = s.senders.map _
      cases e with
      | sender i a =>
          obtain ⟨d, u, sh, hd, hfire, -, rfl⟩ := Daemon.step_sender hs
          obtain ⟨t, ht, hts⟩ := Option.bind_eq_some_iff.mp hts
          obtain ⟨t', hf, rfl⟩ := Option.map_eq_some_iff.mp hts
          obtain ⟨t₀, ht₀, herase⟩ := hm.sender hd
          obtain rfl : t = t₀ := Option.some.inj (ht.symm.trans ht₀)
          have hvisible := Thread.fire_visible hf
          rw [spawnSenderThread_erase, herase] at hvisible
          obtain rfl : u = t'.erase := Option.some.inj (hfire.symm.trans hvisible)
          show _ = (m.daemon.senders.set i { d with thread := t'.erase }).map _
          rw [List.map_set, List.map_set, hm]
      | main a =>
          obtain ⟨u, sh, -, -, rfl⟩ := Daemon.step_main hs
          show _ = (m.daemon.senders ++ m.daemon.newSenders a).map _
          by_cases hnew : a = .did .createSender ()
          · subst hnew
            cases hts
            have hentry : (Thread.start spawnSenderThreadHeap .entry).erase = .start spawnSenderThread .entry :=
              congrArg (Thread.mk SenderLoc.entry) (spawnSenderThreadHeap_erase .entry)
            rw [List.map_append, List.map_append, hm, List.map_singleton, hentry]
            rfl
          · obtain ⟨hfollow, hsame⟩ := @newSenders_other m a hnew
            rw [hfollow] at hts
            cases hts
            rw [hsame, List.append_nil]
            exact hm
      | listener i a =>
          obtain ⟨d, u, sh, -, -, -, rfl⟩ := Daemon.step_listener hs
          cases hts
          exact hm
      | locker i a =>
          obtain ⟨d, u, sh, -, -, -, rfl⟩ := Daemon.step_locker hs
          cases hts
          exact hm

/-- **What happens to the daemon with its account** happens to the daemon. -/
theorem daemon_run {cfg : Config} {conn args : Bytes} {tr : List LedgerEvent}
    (h : Run Step (init cfg conn args) tr m) :
    Faithful m ∧ ∃ tr', Run Daemon.Step (Daemon.init cfg conn args) tr' m.daemon := by
  refine h.invariant
    (I := fun m => Faithful m ∧ ∃ tr', Run Daemon.Step (Daemon.init cfg conn args) tr' m.daemon) ⟨rfl, [], .nil⟩ ?_
  rintro a e b ⟨hm, tr', hrun⟩ hs
  refine ⟨faithful_step hm hs, ?_⟩
  cases e with
  | call e =>
      obtain ⟨s, ts, hstep, -, rfl⟩ := step_call hs
      exact ⟨_, hrun.snoc hstep⟩
  | stmt i st =>
      obtain ⟨t, t', -, -, rfl⟩ := step_stmt hs
      exact ⟨tr', hrun⟩

/-- The statements that a sender can execute are executed. -/
theorem run_stmts {i : Nat} {ss : List Stmt} {t t₁ : Thread heapI SenderLoc} (hx : m.daemon.exited = false)
    (ht : m.senders[i]? = some t) (h : Run (Thread.Alone spawnSenderThreadHeap) t (ss.map Act.silent) t₁) :
    ∃ m₁, Run Step m (ss.map (.stmt i)) m₁ ∧ m₁.daemon = m.daemon ∧ m₁.senders = m.senders.set i t₁ := by
  induction ss using List.reverseRecOn generalizing t₁ with
  | nil =>
      obtain rfl : t = t₁ := Run.unique (fun _ _ _ _ h₁ h₂ => Option.some.inj (h₁.symm.trans h₂)) .nil h
      refine ⟨m, .nil, rfl, ?_⟩
      obtain ⟨hlt, rfl⟩ := List.getElem?_eq_some_iff.mp ht
      exact (List.set_getElem_self hlt).symm
  | append_singleton ss s ih =>
      rw [List.map_append, List.map_singleton] at h
      obtain ⟨t₂, hrun, hlast⟩ := h.snoc_inv
      obtain ⟨m₂, hrun₂, hdaemon, hsenders⟩ := ih hrun
      have ht₂ : m₂.senders[i]? = some t₂ := by
        rw [hsenders, List.getElem?_set_self (List.getElem?_eq_some_iff.mp ht).1]
      have hstep : Step m₂ (.stmt i s) { m₂ with
          senders := m₂.senders.set i t₁
          holds   := Function.update m₂.holds (.sender i) (heldAfter (m₂.holds (.sender i)) (.inr s) ()) } := by
        have hfire : t₂.fire spawnSenderThreadHeap (.silent s) = some t₁ := hlast
        simp [Step, exec, hdaemon, hx, ht₂, hfire]
      rw [List.map_append, List.map_singleton]
      refine ⟨_, hrun₂.snoc hstep, hdaemon, ?_⟩
      rw [hsenders, List.set_set]

/-- **What the daemon does** it does with its account, with some statements before. -/
theorem exists_step {s : Daemon} {e : Event} (hm : Faithful m) (h : Daemon.Step m.daemon e s) :
    ∃ tr m', Run Step m tr m' ∧ m'.daemon = s := by
  have hx := Daemon.step_running h
  have hexec : m.daemon.exec e = some s := h
  -- a step that no sender takes needs no statement
  have hcall : ∀ {m₁ : Ledger} {ts}, m₁.daemon = m.daemon → m₁.follow e = some ts →
      Step m₁ (.call e) ⟨s, servingAfter m₁.serving e, ts, m₁.holdsAfter e⟩ := by
    intro m₁ ts hdaemon hts
    simp [Step, exec, hdaemon, hexec, hts]
  cases e with
  | sender i a =>
      obtain ⟨d, u, sh, hd, hfire, -, -⟩ := Daemon.step_sender h
      obtain ⟨t, ht, herase⟩ := hm.sender hd
      rw [← herase, ← spawnSenderThread_erase] at hfire
      obtain ⟨ss, t₁, t', hrun, hvisible, -⟩ := Thread.exists_fire hfire
      obtain ⟨m₁, hstmts, hdaemon, hsenders⟩ := run_stmts hx ht hrun
      have hlt : i < m.senders.length := (List.getElem?_eq_some_iff.mp ht).1
      have hfollow : m₁.follow (.sender i a) = some (m.senders.set i t') := by
        simp [follow, hsenders, List.getElem?_set_self hlt, hvisible]
      exact ⟨_, _, hstmts.snoc (hcall hdaemon hfollow), rfl⟩
  | main a =>
      by_cases hnew : a = .did .createSender ()
      · subst hnew
        exact ⟨_, _, .single (hcall rfl rfl), rfl⟩
      · exact ⟨_, _, .single (hcall rfl (newSenders_other hnew).1), rfl⟩
  | listener i a => exact ⟨_, _, .single (hcall rfl rfl), rfl⟩
  | locker i a => exact ⟨_, _, .single (hcall rfl rfl), rfl⟩

/-- **The daemon with its account** can do all that the daemon can. -/
theorem exists_run {cfg : Config} {conn args : Bytes} {tr : List Event} {s : Daemon}
    (h : Run Daemon.Step (Daemon.init cfg conn args) tr s) :
    ∃ tr' m, Run Step (init cfg conn args) tr' m ∧ m.daemon = s := by
  refine h.invariant (I := fun s => ∃ tr' m, Run Step (init cfg conn args) tr' m ∧ m.daemon = s)
    ⟨[], _, .nil, rfl⟩ ?_
  rintro _ e b ⟨tr', m, hrun, rfl⟩ hs
  obtain ⟨tr'', m', hrun', hdaemon⟩ := exists_step (daemon_run hrun).1 hs
  exact ⟨_, m', hrun.append hrun', hdaemon⟩

end Ledger

end IOSwitch
