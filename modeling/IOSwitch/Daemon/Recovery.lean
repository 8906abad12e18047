import IOSwitch.Daemon.Mutex
import IOSwitch.Daemon.Races

/-!
# `Daemon.Recovery` — the daemon can always be ended

As long as no START arrives while the daemon is sending, no state is a dead end: whatever the threads are in the middle
of, there is a way on in which a KILL is received and served (`killable`). What could be in the way are the two
mutexes. Whoever holds one can run to its `unlock` (`sender_unlocks`, `listener_unlocks`), and the main thread never
waits for a mutex it holds itself; so it can run to the end of its block (`main_finishes`), and from there receive the
KILL.

## Contents
- `tableContract`, `lobbyMutex` — the listeners and the main thread give the listener mutex back.
- `TableInv`, `listener_unlocks`.
- `steer`, `Steered` — answers that lead the main thread back to its loop.
- `main_finishes`, `killable`.
-/

namespace IOSwitch

open Lib Server

/-! ## The listener mutex -/

/-- The ghost state is whether the listener holds the mutex. It neither reads nor writes with it, and does not take it
    twice. -/
def tableContract : Contract listenerI Bool where
  pre held c := match c with
    | .lock | .read | .write _ _ => held = false
    | .unlock                    => held = true
    | .clearConnection           => True
  post held c _ held' := match c with
    | .lock   => held' = true
    | .unlock => held' = false
    | _       => held' = held

theorem table_verified : Thread.Verified tableContract spawnListenerThread fun _ held => held = false := by
  rintro l _ rfl
  cases l with
  | loop packet =>
      refine ⟨rfl, ?_⟩
      rintro r _ rfl
      show wp _ (Listener.handleRead packet r) _ _
      unfold Listener.handleRead
      split
      · simp [tableContract]
      · split
        · simp [tableContract]
        · exact rfl
  | exited => exact rfl

/-- Likewise for the main thread. -/
def lobbyMutex : Contract serverI Bool where
  pre held c := match c with
    | .lockListener   => held = false
    | .unlockListener => held = true
    | _               => True
  post held c _ held' := match c with
    | .lockListener   => held' = true
    | .unlockListener => held' = false
    | _               => held' = held

theorem acceptInput_lobby (fd : Int) (conn : Bytes) :
    wp lobbyMutex (acceptInput fd conn) (fun held _ => held = false) false := by
  refine ⟨trivial, ?_⟩
  rintro numConns _ rfl
  show wp _ (if maxConnections ≤ numConns then _ else _) _ _
  split
  · exact rfl
  refine ⟨rfl, ?_⟩
  rintro _ _ rfl
  show wp _ (findSlot numConns 0 0 >>= _) _ _
  refine wp_seq (wp_findSlot (fun i => ⟨trivial, fun _ _ h => h⟩) numConns 0 0) ?_
  rintro _ slot rfl
  refine wp_seq (wp_createDevices (fun c hc => ?_) fd conn _ 0 []) ?_
  · cases c with
    | openUinput | devSetup _ _ | devCreate _ => exact ⟨trivial, fun _ _ h => h⟩
    | _ => exact hc.elim
  rintro _ devices rfl
  simp [lobbyMutex]

theorem lobby_unlocks : Thread.Verified lobbyMutex runServer fun _ held => held = false := by
  have hout : ∀ (held : Bool) (c : ServerCall), held = false → ¬ c.ForInput →
      lobbyMutex.pre held c ∧ ∀ r held', lobbyMutex.post held c r held' → held' = false := by
    rintro _ c rfl hc
    cases c with
    | lockListener | unlockListener => exact absurd trivial hc
    | wild => exact ⟨trivial, fun r => r.elim⟩
    | _ => exact ⟨trivial, fun _ _ h => h⟩
  exact runServer_verified hout fun fd conn held hheld => by
    subst hheld
    exact acceptInput_lobby fd conn

namespace Daemon

variable {s s' : Daemon} {e : Event} {tr : List Event} {cfg : Config} {conn args : Bytes}

/-- Every thread keeps its discipline with the listener mutex, and nobody else holds it. -/
structure TableInv (s : Daemon) : Prop where
  main      : s.main.Ok lobbyMutex (fun _ held => held = false) (decide (s.listenerMutex = some .main))
  listeners : ∀ (m : Nat) (d : ListenerThread), s.listeners[m]? = some d →
    d.thread.Ok tableContract (fun _ held => held = false) (decide (s.listenerMutex = some (.listener m)))
  holder    : ∀ who, s.listenerMutex = some who → who = .main ∨ ∃ m < s.listeners.length, who = .listener m

theorem table_frame (h : Step s e s') {who : Tid} (he : tidOf e ≠ some who) :
    s'.listenerMutex = some who ↔ s.listenerMutex = some who :=
  Set.ext_iff.mp (heldBy_frame h he) .listener

theorem lobbyMutex_did {c : ServerCall} {r : c.Resp} (h : Step s (.main (.did c r)) s') :
    lobbyMutex.post (decide (s.listenerMutex = some .main)) c r (decide (s'.listenerMutex = some .main)) := by
  have hsh := shared_call h
  have hother : (∀ m, serverLocks.takes c ≠ some m) → (∀ m, serverLocks.gives c ≠ some m) →
      s'.listenerMutex = s.listenerMutex := fun ht hg => (moves_main h).other .listener (ht _) (hg _)
  cases c with
  | lockListener => simp [lobbyMutex, (Shared.lockListener_eq.mp hsh).2]
  | unlockListener => simp [lobbyMutex, (Shared.unlockListener_eq.mp hsh).2]
  | lockSender => simp [lobbyMutex, (Shared.lockSender_eq.mp hsh).2]
  | unlockSender => simp [lobbyMutex, (Shared.unlockSender_eq.mp hsh).2]
  | _ =>
      show decide _ = decide _
      rw [hother (by simp [serverLocks]) (by simp [serverLocks])]

theorem tableContract_did {m : Nat} {c : ListenerCall} {r : c.Resp} (h : Step s (.listener m (.did c r)) s') :
    tableContract.post (decide (s.listenerMutex = some (.listener m))) c r
      (decide (s'.listenerMutex = some (.listener m))) := by
  obtain ⟨d, t, sh, -, -, hsh, rfl⟩ := step_listener h
  cases c with
  | lock => simp [tableContract, (Shared.lockListener_eq.mp hsh).2]
  | unlock => simp [tableContract, (Shared.unlockListener_eq.mp hsh).2]
  | write devId ie =>
      obtain ⟨dev, -, rfl⟩ := Option.map_eq_some_iff.mp hsh
      rfl
  | read | clearConnection =>
      cases hsh
      rfl

theorem tableInv_init (cfg : Config) (conn args : Bytes) : TableInv (init cfg conn args) where
  main      := Thread.ok_start lobby_unlocks rfl
  listeners := fun _ _ h => by simp [init] at h
  holder    := fun _ h => by cases h

/-- **Step lemma.** -/
theorem tableInv_step (hinv : TableInv s) (h : Step s e s') : TableInv s' := by
  have hlen := listeners_length_le h
  constructor
  · refine mainOk_step h hinv.main ?_ ?_ fun he => ?_
    · rintro l rfl hl
      have hsame : s'.listenerMutex = s.listenerMutex := by rw [shared_main_jump h]
      rw [hsame]
      exact lobby_unlocks l _ hl
    · rintro c r rfl -
      exact lobbyMutex_did h
    · have htid : tidOf e ≠ some .main := by
        cases e with
        | main a => exact absurd rfl (he a)
        | _ => simp [tidOf]
      simp only [table_frame h htid]
  · intro m d' hd'
    rcases listener_cases h hd' with ⟨hd, hne⟩ | ⟨a, d, rfl, hd, -, -, hf⟩ | ⟨hm, _, _, rfl, rfl⟩
    · have htid : tidOf e ≠ some (.listener m) := by
        cases e with
        | listener j a =>
            rintro ⟨⟩
            exact hne a rfl
        | _ => simp [tidOf]
      simp only [table_frame h htid]
      exact hinv.listeners m d' hd
    · cases a with
      | jump l =>
          have hsame : s'.listenerMutex = s.listenerMutex := by
            obtain ⟨d, t, sh, -, -, hsh, rfl⟩ := step_listener h
            cases hsh
            rfl
          rw [hsame]
          exact (hinv.listeners m d hd).jump table_verified hf
      | did c r => exact (hinv.listeners m d hd).did hf (tableContract_did h)
    · -- the new listener's number is held by nobody
      have hfree : decide (s'.listenerMutex = some (.listener m)) = false := by
        rw [decide_eq_false_iff_not, table_frame h (by simp [tidOf])]
        intro hheld
        rcases hinv.holder _ hheld with hmain | ⟨n, hn, hwho⟩
        · cases hmain
        · injection hwho with hlen
          omega
      rw [hfree]
      exact Thread.ok_start table_verified rfl
  · intro who hw
    by_cases htid : tidOf e = some who
    · cases e with
      | main a => exact Or.inl (Option.some.inj htid).symm
      | sender i a =>
          rw [shared_sender h] at hw
          rcases hinv.holder who hw with hmain | ⟨m, hm, hwho⟩
          · exact Or.inl hmain
          · exact Or.inr ⟨m, Nat.lt_of_lt_of_le hm hlen, hwho⟩
      | listener m a =>
          obtain ⟨d, t, sh, hd, -, -, -⟩ := step_listener h
          have hm : m < s.listeners.length := (List.getElem?_eq_some_iff.mp hd).1
          exact Or.inr ⟨m, Nat.lt_of_lt_of_le hm hlen, (Option.some.inj htid).symm⟩
      | locker j a => cases htid
    · rcases hinv.holder who ((table_frame h htid).mp hw) with hmain | ⟨m, hm, hwho⟩
      · exact Or.inl hmain
      · exact Or.inr ⟨m, Nat.lt_of_lt_of_le hm hlen, hwho⟩

theorem tableInv_run (h : Run Step (init cfg conn args) tr s) : TableInv s :=
  h.invariant (tableInv_init cfg conn args) fun _ _ _ => tableInv_step

/-- A call of a listener is possible if its effect is. -/
theorem can_listener_call (hx : s.exited = false) {m : Nat} {d : ListenerThread} {c : ListenerCall}
    {k : c.Resp → Prog listenerI ListenerLoc} {r : c.Resp} {sh : Shared} (hd : s.listeners[m]? = some d)
    (hr : d.thread.rest = .call c k) (he : s.listenerEffect m d.args c r = some sh) :
    Step s (.listener m (.did c r)) { s with
      toShared  := sh
      listeners := s.listeners.set m { d with thread := ⟨d.thread.loc, k r⟩ } } := by
  have hf : d.thread.fire spawnListenerThread (.did c r) = some ⟨d.thread.loc, k r⟩ :=
    (Thread.fire_did (I := listenerI)).mpr ⟨k, hr, rfl⟩
  simp [Step, exec, hx, hd, hf, effectOf, he]

/-- **A listener that holds the mutex can run to its `unlock`**, on its own. -/
theorem listener_unlocks {m : Nat} (p : Prog listenerI ListenerLoc) {s : Daemon} {d : ListenerThread}
    (hinv : TableInv s) (hx : s.exited = false) (hheld : s.listenerMutex = some (.listener m))
    (hd : s.listeners[m]? = some d) (hp : d.thread.rest = p) :
    ∃ tr s', Run Step s tr s' ∧ (∀ e ∈ tr, ∃ a, e = .listener m a) ∧ s'.listenerMutex = none ∧
      s'.exited = false ∧ s'.main = s.main := by
  -- by induction on what is left of the block: it must unlock before it returns
  induction p generalizing s d with
  | ret l => exact absurd hheld (of_decide_eq_false ((hinv.listeners m d hd).of_ret hp))
  | call c k ih =>
      have hpre : tableContract.pre (decide (s.listenerMutex = some (.listener m))) c :=
        ((hinv.listeners m d hd).of_call hp).1
      have hlt : m < s.listeners.length := (List.getElem?_eq_some_iff.mp hd).1
      cases c with
      | lock => exact absurd hheld (of_decide_eq_false hpre)
      | read => exact absurd hheld (of_decide_eq_false hpre)
      | write devId ie => exact absurd hheld (of_decide_eq_false hpre)
      | unlock =>
          have hstep := can_listener_call (r := ()) hx hd hp (Shared.unlockListener_eq.mpr ⟨hheld, rfl⟩)
          exact ⟨_, _, Run.single hstep, by simp, rfl, hx, rfl⟩
      | clearConnection =>
          have hstep := can_listener_call (r := ()) hx hd hp rfl
          obtain ⟨tr, s', hrun, hev, hrest⟩ :=
            ih () (tableInv_step hinv hstep) hx hheld (List.getElem?_set_self hlt) rfl
          refine ⟨_, s', Run.cons hstep hrun, ?_, hrest⟩
          rintro e (_ | ⟨_, he⟩)
          · exact ⟨_, rfl⟩
          · exact hev e he

end Daemon

/-! ## Answers that lead back to the loop -/

/-- The answers with which the main thread is led to a KILL: no call of the accept loop fails, and the next connection
    is a KILL. -/
def steer : Contract serverI Unit where
  pre _ c := c ≠ .wild
  post _ c r _ := match c, r with
    | .listen, r     => r = (0 : Int)
    | .accept, fd    => fd = (4 : Int)
    | .recvConn _, r => r = Daemon.received Daemon.commandConn
    | .recvArgs _, r => r = Daemon.received (Daemon.plainArgs .kill)
    | _, _           => True

/-- Where the main thread is led to: its loop, the handler of KILL, or the return of a KILL. -/
def Steered : ServerLoc → Prop
  | .entry _ _       => False
  | .loop _ _        => True
  | .handle _ args   => (CommandArgs.ofMem args).type = .kill
  | .returned code   => code = 0

/-- Unless it has got into the command table behind its end, any call of the main thread can be answered so. -/
def Steerable (p : Prog serverI ServerLoc) : Prop :=
  p.result = none → p.next ≠ some .wild → wp steer p (fun _ l => Steered l) ()

theorem plainArgs_kill (args : Bytes) :
    (CommandArgs.ofMem (overlay args (Daemon.plainArgs .kill))).type = .kill := by
  rw [Daemon.ofMem_overlay (Daemon.plainArgs_length .kill)]
  decide +kernel

theorem steerable_ret (l : ServerLoc) : Steerable (.ret l) := fun h => by cases h

/-- Code that goes on to a good place whatever the answers. -/
theorem steerable_of_within {p : Prog serverI ServerLoc} (hp : p.Within (fun c => c ≠ ServerCall.wild) Steered) :
    Steerable p :=
  fun _ _ => wp_mono (wp_neutral hp fun _ hc => ⟨hc, fun _ _ _ => rfl⟩) fun _ _ h => h.2

theorem acceptConn_steerable (fd : Int) (conn args : Bytes) : (acceptConn fd conn args).Always Steerable := by
  unfold acceptConn
  split
  · have hinput : (acceptInput fd conn).Within (fun c => c ≠ ServerCall.wild) fun _ => True := by
      refine (acceptInput_forInput fd conn).mono (fun c hc => ?_) fun _ h => h
      rintro rfl
      exact hc
    have hround : (acceptInput fd conn >>= fun _ => Prog.ret (ServerLoc.loop conn args)).Within
        (fun c => c ≠ ServerCall.wild) Steered := Prog.within_bind hinput fun _ _ => trivial
    exact hround.always.mono fun _ h => steerable_of_within h
  · refine ⟨fun _ _ => ⟨by rintro ⟨⟩, ?_⟩, fun r => ?_⟩
    · intro r _ hr
      have hr : r = .data (Daemon.plainArgs .kill) (Nat.le_of_eq (Daemon.plainArgs_length .kill)) :=
        Eq.trans hr (Daemon.received_of_le _)
      have hret : ¬ r.ret < 0 := by simp [hr, ReadResult.ret]
      have hbytes : r.bytes = Daemon.plainArgs .kill := by rw [hr]; rfl
      show wp steer (if r.ret < 0 then _ else _) _ _
      rw [if_neg hret, hbytes]
      exact plainArgs_kill args
    · show Prog.Always _ (if r.ret < 0 then _ else _)
      split <;> exact steerable_ret _
  · exact steerable_ret _

/-- A KILL is received. -/
theorem acceptConn_command (fd : Int) (conn args : Bytes) :
    wp steer (acceptConn fd (overlay conn Daemon.commandConn) args) (fun _ l => Steered l) () := by
  have hhead := (acceptConn_steerable fd (overlay conn Daemon.commandConn) args).head
  unfold acceptConn at hhead ⊢
  rw [Daemon.typeAt_commandConn] at hhead ⊢
  exact hhead rfl (by rintro ⟨⟩)

theorem acceptOne_steerable (conn args : Bytes) : (acceptOne conn args).Always Steerable := by
  have hrecv : ∀ fd, wp steer (ask (.recvConn fd) >>= fun r =>
      if r.ret < 0 then return .returned (-1) else acceptConn fd (overlay conn r.bytes) args) (fun _ l => Steered l) () := by
    intro fd
    refine ⟨by rintro ⟨⟩, ?_⟩
    intro r _ hr
    have hr : r = .data Daemon.commandConn (Nat.le_of_eq Daemon.commandConn_length) :=
      Eq.trans hr (Daemon.received_of_le _)
    have hret : ¬ r.ret < 0 := by simp [hr, ReadResult.ret]
    have hbytes : r.bytes = Daemon.commandConn := by rw [hr]; rfl
    show wp steer (if r.ret < 0 then _ else _) _ _
    rw [if_neg hret, hbytes]
    exact acceptConn_command fd conn args
  refine ⟨fun _ _ => ⟨by rintro ⟨⟩, ?_⟩, fun fd => ?_⟩
  · rintro fd _ rfl
    exact hrecv 4
  · show Prog.Always _ (if fd < 0 then _ else _)
    split
    · exact steerable_ret _
    refine ⟨fun _ _ => hrecv fd, fun r => ?_⟩
    show Prog.Always _ (if r.ret < 0 then _ else _)
    split
    · exact steerable_ret _
    · exact acceptConn_steerable fd _ args

/-- A handler ends in the loop, or with a KILL; that of KILL ends with one. -/
theorem handle_ends (conn : Bytes) {args : Bytes} (hknown : Daemon.Known (CommandArgs.ofMem args).type) :
    (runServer (.handle conn args)).Within ServerCall.Handles fun l => Steered l ∧ l.handling = false := by
  refine Prog.within_bind (commands_handles _ hknown) fun result _ => ?_
  show Steered (if result = 1 then _ else _) ∧ ServerLoc.handling (if result = 1 then _ else _) = false
  split <;> exact ⟨by first | rfl | trivial, rfl⟩

theorem kill_ends {conn args : Bytes} (hkill : (CommandArgs.ofMem args).type = .kill) :
    (runServer (.handle conn args)).Within ServerCall.Handles fun l => l = .returned 0 := by
  have hhandler : (commands (.ofMem args)).Within ServerCall.Handles fun r => r = 1 := by
    unfold commands
    rw [hkill]
    exact Prog.within_bind (stop_handles _) fun _ _ => rfl
  refine Prog.within_bind hhandler ?_
  rintro _ rfl
  rfl

theorem Handles.ne_wild {c : ServerCall} (hc : c.Handles) : c ≠ .wild := by
  rintro rfl
  exact hc trivial

theorem runServer_steerable (l : ServerLoc) : (runServer l).Always Steerable := by
  cases l with
  | entry conn args =>
      refine ⟨fun _ _ => ⟨by rintro ⟨⟩, ?_⟩, fun r => ?_⟩
      · rintro r _ rfl
        trivial
      · show Prog.Always _ (if r < 0 then _ else _)
        split <;> exact steerable_ret _
  | loop conn args => exact acceptOne_steerable conn args
  | handle conn args =>
      by_cases hknown : Daemon.Known (CommandArgs.ofMem args).type
      · have hwithin := (handle_ends conn hknown).mono (fun c hc => Handles.ne_wild hc) fun _ h => h.1
        exact hwithin.always.mono fun _ h => steerable_of_within h
      · obtain ⟨code, hcode⟩ := not_forall_not.mp hknown
        show Prog.Always _ (commands (.ofMem args) >>= _)
        unfold commands
        rw [hcode]
        exact ⟨fun _ hwild => absurd rfl hwild, fun r => r.elim⟩
  | returned code => exact steerable_ret _

/-! ## The way on -/

namespace Daemon

variable {s s' : Daemon} {tr : List Event} {cfg : Config} {conn args : Bytes}

/-- A call of the main thread has the answer that `steer` asks for, unless it waits for a mutex. -/
theorem server_call_possible {c : ServerCall} (hwild : c ≠ .wild) (hflag : flagContract.pre (flagView tr s) c)
    (htable : lobbyMutex.pre (decide (s.listenerMutex = some .main)) c)
    (hsender : c = .lockSender → s.senderMutex = none) (hlistener : c = .lockListener → s.listenerMutex = none) :
    ∃ (r : c.Resp) (sh : Shared), s.serverEffect c r = some sh ∧ steer.post () c r () := by
  cases c with
  | lockSender => exact ⟨(), _, Shared.lockSender_eq.mpr ⟨hsender rfl, rfl⟩, trivial⟩
  | unlockSender => exact ⟨(), _, Shared.unlockSender_eq.mpr ⟨of_decide_eq_true hflag.2, rfl⟩, trivial⟩
  | lockListener => exact ⟨(), _, Shared.lockListener_eq.mpr ⟨hlistener rfl, rfl⟩, trivial⟩
  | unlockListener => exact ⟨(), _, Shared.unlockListener_eq.mpr ⟨of_decide_eq_true htable, rfl⟩, trivial⟩
  | sending => exact ⟨s.sending, _, Shared.check_eq.mpr ⟨by simp, rfl⟩, trivial⟩
  | numConns => exact ⟨s.numConns, _, Shared.check_eq.mpr ⟨by simp, rfl⟩, trivial⟩
  | connection i => exact ⟨s.connections.getD i 0, _, Shared.check_eq.mpr ⟨by simp, rfl⟩, trivial⟩
  | listen => exact ⟨(0 : Int), _, rfl, rfl⟩
  | accept => exact ⟨(4 : Int), _, rfl, rfl⟩
  | recvConn fd => exact ⟨received commandConn, _, rfl, rfl⟩
  | recvArgs fd => exact ⟨received (plainArgs .kill), _, rfl, rfl⟩
  | openUinput => exact ⟨(-1 : Int), _, rfl, trivial⟩
  | loadConfig path => exact ⟨emptyConfig, _, rfl, trivial⟩
  | wild => exact absurd rfl hwild
  | _ => exact ⟨(), _, rfl, trivial⟩

/-- Steps of a listener are no commands. -/
theorem startLegal_of_listener {m : Nat} {a : Act listenerI ListenerLoc} : StartLegal s (.listener m a) := by
  rintro ⟨⟩

/-- **The main thread can run to the end of its block**, where it is steered, with the help of at most the threads that
    hold the mutexes. -/
theorem main_finishes (p : Prog serverI ServerLoc) {Q : ServerLoc → Prop} {tr : List Event} {s : Daemon}
    (h : Run (Restrict StartLegal Step) (init cfg conn args) tr s) (hx : s.exited = false) (hp : s.main.rest = p)
    (hwp : wp steer p (fun _ l => Q l) ()) :
    ∃ tr' s' l, Run (Restrict StartLegal Step) s tr' s' ∧ s'.main.rest = .ret l ∧ Q l ∧ s'.exited = false := by
  -- by induction on what is left of the block
  induction p generalizing tr s with
  | ret l => exact ⟨[], s, l, .nil, hp, hwp, hx⟩
  | call c k ih =>
      -- a call that need not wait is made, and the rest follows
      have hgo : ∀ {tr s}, Run (Restrict StartLegal Step) (init cfg conn args) tr s → s.exited = false →
          s.main.rest = .call c k → (c = .lockSender → s.senderMutex = none) →
          (c = .lockListener → s.listenerMutex = none) →
          ∃ tr' s' l, Run (Restrict StartLegal Step) s tr' s' ∧ s'.main.rest = .ret l ∧ Q l ∧ s'.exited = false := by
        intro tr s h hx hp hsender hlistener
        have hflag : flagContract.pre (flagView tr s) c := ((flagInv_run h).main.of_call hp).1
        have htable := ((tableInv_run h.of_restrict).main.of_call hp).1
        obtain ⟨r, sh, hsh, hpost⟩ := server_call_possible hwp.1 hflag htable hsender hlistener
        have hstep := can_call hx hp hsh
        obtain ⟨tr', s', l, hrun, hdone⟩ := ih r (h.snoc ⟨startLegal_of_did, hstep⟩) hx rfl (hwp.2 r () hpost)
        exact ⟨_, s', l, Run.cons ⟨startLegal_of_did, hstep⟩ hrun, hdone⟩
      by_cases hsender : c = .lockSender → s.senderMutex = none
      · by_cases hlistener : c = .lockListener → s.listenerMutex = none
        · exact hgo h hx hp hsender hlistener
        -- the holder of the listener mutex is a listener, which runs first
        obtain ⟨rfl, hne⟩ := Classical.not_imp.mp hlistener
        obtain ⟨who, hwho⟩ := Option.ne_none_iff_exists'.mp hne
        have hinv := tableInv_run h.of_restrict
        have hmain : who ≠ .main := by
          rintro rfl
          exact of_decide_eq_false (hinv.main.of_call hp).1 hwho
        obtain ⟨m, hm, rfl⟩ := (hinv.holder who hwho).resolve_left hmain
        obtain ⟨tr₁, s₁, hrun₁, hev, hfree₁, hx₁, hm₁⟩ :=
          listener_unlocks _ hinv hx hwho (List.getElem?_eq_getElem hm) rfl
        have hlegal₁ : Run (Restrict StartLegal Step) s tr₁ s₁ := by
          apply hrun₁.restrict
          intro e he a
          obtain ⟨act, rfl⟩ := hev e he
          exact startLegal_of_listener
        obtain ⟨tr₂, s₂, l, hrun₂, hdone⟩ :=
          hgo (h.append hlegal₁) hx₁ (hm₁ ▸ hp) (by rintro ⟨⟩) fun _ => hfree₁
        exact ⟨_, s₂, l, hlegal₁.append hrun₂, hdone⟩
      -- the holder of the sender mutex is a sender
      obtain ⟨rfl, hne⟩ := Classical.not_imp.mp hsender
      obtain ⟨who, hwho⟩ := Option.ne_none_iff_exists'.mp hne
      have hinv := mutexInv_run h.of_restrict
      have hmain : who ≠ .main := by
        rintro rfl
        exact of_decide_eq_false ((flagInv_run h).main.of_call hp).1.2 hwho
      obtain ⟨i, hi, rfl⟩ := (hinv.holder who hwho).resolve_left hmain
      obtain ⟨tr₁, s₁, hrun₁, hev, hfree₁, hx₁, hm₁⟩ := sender_unlocks _ hinv (configInv_run h.of_restrict) hx hwho
        (List.getElem?_eq_getElem hi) rfl
      have hlegal₁ : Run (Restrict StartLegal Step) s tr₁ s₁ := by
        apply hrun₁.restrict
        intro e he a
        obtain ⟨act, rfl⟩ := hev e he
        exact startLegal_of_sender
      obtain ⟨tr₂, s₂, l, hrun₂, hdone⟩ :=
        hgo (h.append hlegal₁) hx₁ (hm₁ ▸ hp) (fun _ => hfree₁) (by rintro ⟨⟩)
      exact ⟨_, s₂, l, hlegal₁.append hrun₂, hdone⟩

/-- What is left of the main thread's block is one that any answers can have led to. -/
theorem steerable_run (h : Run Step (init cfg conn args) tr s) : s.main.rest.Always Steerable := by
  refine h.invariant (I := fun s => s.main.rest.Always Steerable) (runServer_steerable (.entry conn args)) ?_
  intro s e s' hinv hs
  rcases main_cases hs with ⟨hm, -⟩ | ⟨a, -, hf⟩
  · rw [hm]
    exact hinv
  · cases a with
    | jump l =>
        rw [Thread.jump_start hf]
        exact runServer_steerable l
    | did c r => exact Thread.always_did hinv hf

/-- The main thread is not lost: it is not about to return -1, to jump behind the end of the command table, or to
    serve a START while the daemon is sending. -/
structure Sound (s : Daemon) : Prop where
  table : s.main.rest.next ≠ some .wild
  next  : ∀ l, s.main.rest = .ret l → match l with
    | .returned code => code = 0
    | .handle _ args => Known (CommandArgs.ofMem args).type ∧ ((CommandArgs.ofMem args).type = .start → s.sending = false)
    | _              => True

/-- The run in which a KILL is served. -/
def KillRun (s : Daemon) : Prop := ∃ tr s', Run (Restrict StartLegal Step) s tr s' ∧ s'.main.loc = .returned 0

theorem KillRun.after (h : Run (Restrict StartLegal Step) s tr s') (hkill : KillRun s') : KillRun s := by
  obtain ⟨tr', s'', hrun, hloc⟩ := hkill
  exact ⟨_, s'', h.append hrun, hloc⟩

/-- A finished block is left for any label that is no START at 1. -/
theorem run_jump {l : ServerLoc} (hx : s.exited = false) (hr : s.main.rest = .ret l)
    (hl : StartLegal s (.main (.jump l))) :
    Run (Restrict StartLegal Step) s [.main (.jump l)] { s with main := .start runServer l } :=
  Run.single ⟨hl, can_jump hx hr⟩

theorem killRun_returned (hx : s.exited = false) (hr : s.main.rest = .ret (.returned 0)) : KillRun s :=
  ⟨_, _, run_jump hx hr (by rintro ⟨⟩), rfl⟩

/-- The handler of KILL, once entered, returns. -/
theorem killRun_handle (h : Run (Restrict StartLegal Step) (init cfg conn args) tr s) (hx : s.exited = false)
    {conn' args' : Bytes} (hr : s.main.rest = .ret (.handle conn' args'))
    (hkill : (CommandArgs.ofMem args').type = .kill) : KillRun s := by
  have hlegal : StartLegal s (.main (.jump (.handle conn' args'))) := by
    intro hcmd
    exact absurd (hkill.symm.trans (Option.some.inj hcmd)) (by decide)
  have hjump := run_jump hx hr hlegal
  have hblock : wp steer (runServer (.handle conn' args')) (fun _ l => l = .returned 0) () :=
    wp_mono (wp_neutral (kill_ends hkill) fun _ hc => ⟨Handles.ne_wild hc, fun _ _ _ => rfl⟩) fun _ _ h => h.2
  obtain ⟨tr', s', l, hrun, hr', rfl, hx'⟩ := main_finishes _ (h.append hjump) hx rfl hblock
  exact .after (hjump.append hrun) (killRun_returned hx' hr')

/-- At the head of the loop a KILL is received. -/
theorem killRun_loop (h : Run (Restrict StartLegal Step) (init cfg conn args) tr s) (hx : s.exited = false)
    {conn' args' : Bytes} (hm : s.main = .start runServer (.loop conn' args')) : KillRun s := by
  have hreceive : Run (Restrict StartLegal Step) s (receive (plainArgs .kill)) _ :=
    (run_receive hx hm (Daemon.plainArgs_length .kill)).restrict fun e he a => by
      simp only [receive, List.mem_cons, List.not_mem_nil, or_false] at he
      rcases he with rfl | rfl | rfl <;> exact startLegal_of_did
  exact .after hreceive (killRun_handle (h.append hreceive) hx rfl (plainArgs_kill args'))

theorem killRun_steered (h : Run (Restrict StartLegal Step) (init cfg conn args) tr s) (hx : s.exited = false)
    {l : ServerLoc} (hr : s.main.rest = .ret l) (hl : Steered l) : KillRun s := by
  cases l with
  | entry conn' args' => exact hl.elim
  | loop conn' args' =>
      have hjump := run_jump hx hr (by rintro ⟨⟩)
      exact .after hjump (killRun_loop (h.append hjump) hx rfl)
  | handle conn' args' => exact killRun_handle h hx hr hl
  | returned code =>
      obtain rfl : code = 0 := hl
      exact killRun_returned hx hr

/-- A block that the main thread is steered through leads to a KILL. -/
theorem killRun_block (h : Run (Restrict StartLegal Step) (init cfg conn args) tr s) (hx : s.exited = false)
    (hwp : wp steer s.main.rest (fun _ l => Steered l) ()) : KillRun s := by
  obtain ⟨tr', s', l, hrun, hr, hl, hx'⟩ := main_finishes _ h hx rfl hwp
  exact .after hrun (killRun_steered (h.append hrun) hx' hr hl)

/-- **The daemon can always be ended.** In every run in which no START arrives while the daemon is sending, and whatever
    its threads are in the middle of: as long as the process is alive and the main thread is not lost, there is a way
    on in which a KILL is received and served, and `run_server` returns 0. -/
theorem killable (h : Run (Restrict StartLegal Step) (init cfg conn args) tr s) (hx : s.exited = false)
    (hsound : Sound s) : ∃ tr' s', Run (Restrict StartLegal Step) s tr' s' ∧ s'.main.loc = .returned 0 := by
  cases hr : s.main.rest with
  | call c k =>
      have hwp := (steerable_run h.of_restrict).head (by rw [hr]; rfl) hsound.table
      exact killRun_block h hx hwp
  | ret l =>
      have hnext := hsound.next l hr
      cases l with
      | loop conn' args' => exact killRun_steered h hx hr trivial
      | returned code => exact killRun_steered h hx hr hnext
      | entry conn' args' =>
          have hjump := run_jump hx hr (by rintro ⟨⟩)
          have hwp := (runServer_steerable (.entry conn' args')).head rfl (by rintro ⟨⟩)
          exact KillRun.after hjump (killRun_block (h.append hjump) hx hwp)
      | handle conn' args' =>
          have hjump := run_jump hx hr fun hcmd => hnext.2 (Option.some.inj hcmd)
          have hwp : wp steer (runServer (.handle conn' args')) (fun _ l => Steered l) () :=
            wp_mono (wp_neutral (handle_ends _ hnext.1) fun _ hc => ⟨Handles.ne_wild hc, fun _ _ _ => rfl⟩)
              fun _ _ h => h.2.1
          exact KillRun.after hjump (killRun_block (h.append hjump) hx hwp)

/-- A STOP waits for the mutex, which a sender holds. -/
def blockedEvents : List Event :=
  boot ++ order .start startEvents ++ [senderCall 0 .socket (3 : Int), senderCall 0 .lock ()] ++
    receive (plainArgs .stop) ++ [.main (.jump (.handle commandConn (plainArgs .stop)))]

theorem killable_blocked :
    ∃ s, Run (Restrict StartLegal Step) (init emptyConfig [] []) blockedEvents s ∧
      s.main.rest.next = some .lockSender ∧ s.senderMutex = some (.sender 0) ∧
      ∃ tr' s', Run (Restrict StartLegal Step) s tr' s' ∧ s'.main.loc = .returned 0 := by
  have hexec : (execs (guarded StartLegal exec) (init emptyConfig [] []) blockedEvents).map
      (fun s => (s.exited, s.main.rest.next, s.senderMutex)) = some (false, some .lockSender, some (.sender 0)) := by
    decide +kernel
  obtain ⟨s, hrun, hfin⟩ := Run.exists_of_execs_guarded hexec
  obtain ⟨hx, hfin⟩ := Prod.mk.inj hfin
  obtain ⟨hnext, hheld⟩ := Prod.mk.inj hfin
  have hsound : Sound s := by
    refine ⟨by rw [hnext]; decide, fun l hr => ?_⟩
    rw [hr] at hnext
    cases hnext
  exact ⟨s, hrun, hnext, hheld, killable hrun hx hsound⟩

end Daemon

end IOSwitch
