import IOSwitch.Daemon.Ledger

/-!
# `Daemon.Release` — what the threads leave behind

Lock threads close what they have opened; no other thread does. So what is held belongs to live threads exactly as long
as no sender and no listener has ended, and every connection accepted was given to a listener (`released_iff`).

## Contents
- `servingContract`, `displayContract` — how the main thread and the lock threads go about what they hold.
- `HoldInv` — what each owner holds at each label.
- `Released`, `released_step`, `released_iff`, `socket_kept`.
-/

namespace IOSwitch

open Lib Server

/-! ## The main thread and the lock threads -/

/-- A listener is created, and devices are opened, while a connection is served. -/
def servingContract : Contract serverI Bool where
  pre serving c := match c with
    | .openUinput | .createListener _ _ => serving = true
    | _                                 => True
  post serving c r serving' := serving' = Ledger.servingAfter serving (.main (.did c r))

theorem acceptInput_serving (fd : Int) (conn : Bytes) :
    wp servingContract (acceptInput fd conn) (fun _ _ => True) true := by
  refine ⟨trivial, ?_⟩
  rintro numConns _ rfl
  show wp _ (if maxConnections ≤ numConns then _ else _) _ _
  split
  · trivial
  refine ⟨trivial, ?_⟩
  rintro _ _ rfl
  show wp _ (findSlot numConns 0 0 >>= _) _ _
  have hread : ∀ i, servingContract.pre true (.connection i) ∧
      ∀ r serving', servingContract.post true (.connection i) r serving' → serving' = true :=
    fun i => ⟨trivial, fun _ _ h => h⟩
  apply wp_seq (wp_findSlot hread numConns 0 0)
  rintro _ slot rfl
  have hmake : ∀ c, ServerCall.MakesDevice c →
      servingContract.pre true c ∧ ∀ r serving', servingContract.post true c r serving' → serving' = true := by
    intro c hc
    cases c with
    | openUinput | devSetup _ _ | devCreate _ => exact ⟨by simp [servingContract], fun _ _ h => h⟩
    | _ => exact hc.elim
  apply wp_seq (wp_createDevices hmake fd conn _ 0 [])
  rintro _ devices rfl
  refine ⟨trivial, ?_⟩
  rintro _ _ rfl
  refine ⟨rfl, ?_⟩
  rintro _ _ rfl
  exact ⟨trivial, fun _ _ _ => trivial⟩

/-- **Every block of the main thread** does so. -/
theorem serving_verified : Thread.Verified servingContract runServer fun _ _ => True := by
  intro l serving _
  cases l with
  | entry conn args =>
      refine ⟨trivial, ?_⟩
      intro r serving _
      show wp _ (if r < 0 then _ else _) _ _
      split <;> trivial
  | loop conn args =>
      refine ⟨trivial, ?_⟩
      rintro fd _ rfl
      show wp _ (if fd < 0 then _ else _) _ _
      split
      · trivial
      · next hopened =>
        have hserving : Ledger.servingAfter serving (.main (.did .accept fd)) = true :=
          decide_eq_true (Int.not_lt.mp hopened)
        rw [hserving]
        refine ⟨trivial, ?_⟩
        rintro r _ rfl
        show wp _ (if r.ret < 0 then _ else _) _ _
        split
        · trivial
        show wp _ (acceptConn _ _ _) _ _
        unfold acceptConn
        split
        · exact wp_seq (acceptInput_serving fd _) fun _ _ _ => trivial
        · refine ⟨trivial, ?_⟩
          intro r serving _
          show wp _ (if r.ret < 0 then _ else _) _ _
          split <;> trivial
        · trivial
  | handle conn args =>
      refine wp_seq (wp_commands (CommandArgs.ofMem args) trivial ?_) fun _ _ _ => trivial
      intro c hc
      cases c with
      | lockSender | unlockSender | sending | setSending _ | freeConfig | loadConfig _ | createSender | printf _ =>
          exact ⟨trivial, fun _ _ h => h⟩
      | _ => exact (hc trivial).elim
  | returned code => trivial

/-- The ghost state is what a lock thread holds; nothing comes after an `exit`. -/
def displayContract : Contract lockI (List Resource) where
  pre _ _ := True
  post held c r held' := match c, r with
    | .openDisplay, true => held' = held ++ [.display]
    | .closeDisplay, _   => held' = held.erase .display
    | .exit, _           => False
    | _, _               => held' = held

/-- A lock thread holds the display while it is locked. -/
def DisplayAt : LockLoc → List Resource → Prop
  | .entry, held    => held = []
  | .locked _, held => held = [.display]
  | .unlocked, held => held = []

section Display

variable {held : List Resource}

theorem grabKeyboard_display (n : Nat) :
    wp displayContract (HostLock.grabKeyboard n) (fun held' _ => held' = held) held := by
  induction n with
  | zero => exact rfl
  | succ n ih =>
      refine ⟨trivial, ?_⟩
      rintro ok _ rfl
      cases ok with
      | true => exact rfl
      | false =>
          refine ⟨trivial, ?_⟩
          rintro _ _ rfl
          exact ih

theorem lock_display : wp displayContract HostLock.lock (fun held _ => held = [.display]) [] := by
  refine ⟨trivial, ?_⟩
  intro opened held hopened
  show wp _ (HostLock.exitUnless opened >>= _) _ _
  apply wp_seq (HostLock.wp_exitUnless (fun _ => trivial) fun _ _ => id)
  rintro held₁ _ ⟨hsame, rfl⟩
  have hheld : held₁ = [.display] := hsame.trans hopened
  rw [hheld]
  apply wp_seq (grabKeyboard_display 100)
  rintro _ ok rfl
  apply wp_seq (HostLock.wp_exitUnless (fun _ => trivial) fun _ _ => id)
  rintro _ _ ⟨rfl, -⟩
  refine ⟨trivial, ?_⟩
  rintro pointer _ rfl
  cases pointer with
  | true => exact rfl
  | false => exact ⟨trivial, fun _ _ _ => ⟨trivial, fun _ _ h => h.elim⟩⟩

theorem release_display (bind : KeyBind) (locked : Bool) :
    wp displayContract (HostLock.release bind locked)
      (fun held r => held = if r.2 then [.display] else []) [.display] := by
  unfold HostLock.release
  cases locked with
  | true => exact rfl
  | false =>
      refine ⟨trivial, ?_⟩
      rintro _ _ rfl
      refine ⟨trivial, ?_⟩
      rintro _ _ rfl
      rfl

theorem tryUnlock_display (bind : KeyBind) :
    wp displayContract (HostLock.tryUnlock bind) (fun held r => held = if r.2 then [.display] else [])
      [.display] := by
  have hnext : displayContract.pre [.display] .nextEvent ∧
      ∀ r held, displayContract.post [.display] .nextEvent r held → held = [.display] := ⟨trivial, fun _ _ h => h⟩
  exact HostLock.wp_tryUnlock hnext release_display bind

/-- **Every block of a lock thread** closes the display when it is unlocked. -/
theorem display_verified : Thread.Verified displayContract spawnLockThread DisplayAt := by
  intro l held hl
  cases l with
  | entry =>
      obtain rfl : held = [] := hl
      exact wp_seq lock_display fun _ _ h => h
  | locked bind =>
      obtain rfl : held = [.display] := hl
      apply wp_seq (tryUnlock_display bind)
      rintro held ⟨bind, locked⟩ hheld
      show DisplayAt (if locked = true then .locked bind else .unlocked) held
      cases locked with
      | true => exact hheld
      | false => exact hheld
  | unlocked => exact hl

end Display

namespace Ledger

variable {m m' : Ledger} {e : Event}

/-! ## Who a step concerns -/

theorem holds_nobody (hne : ∀ fd : Int, e ≠ .main (.did .accept fd)) : m.holdsAfter e .nobody = m.holds .nobody := by
  unfold holdsAfter
  split
  case h_1 fd => exact absurd rfl (hne fd)
  all_goals simp

/-- What the main thread has left is nobody's at the next `accept`. -/
theorem nobody_accept (fd : Int) :
    m.holdsAfter (.main (.did .accept fd)) .nobody = m.holds .nobody ++ m.holds .main := by
  show Function.update (Function.update m.holds .nobody (m.holds .nobody ++ m.holds .main)) .main
    (gain [] fd (.socket fd)) .nobody = _
  rw [Function.update_of_ne (by simp), Function.update_self]

theorem holds_sender {i : Nat} (hne : ∀ a, e ≠ .sender i a)
    (hnew : e = .main (.did .createSender ()) → i ≠ m.daemon.senders.length) :
    m.holdsAfter e (.sender i) = m.holds (.sender i) := by
  unfold holdsAfter
  split
  case h_4 => rw [Function.update_of_ne (by simpa using hnew rfl)]
  case h_5 j c r =>
    rw [Function.update_of_ne]
    rintro ⟨⟩
    exact hne _ rfl
  all_goals simp

theorem holds_listener {i : Nat}
    (hnew : ∀ slot args, e = .main (.did (.createListener slot args) ()) → i ≠ m.daemon.listeners.length) :
    m.holdsAfter e (.listener i) = m.holds (.listener i) := by
  unfold holdsAfter
  split
  case h_3 slot args _ =>
    rw [Function.update_of_ne (by simp), Function.update_of_ne (by simpa using hnew slot args rfl)]
  all_goals simp

theorem holds_locker {j : Nat} (hne : ∀ a, e ≠ .locker j a) : m.holdsAfter e (.locker j) = m.holds (.locker j) := by
  have hother : ∀ {i a}, e = .locker i a → Owner.locker j ≠ .locker i := by
    rintro i a he ⟨⟩
    exact hne a he
  unfold holdsAfter
  split
  case h_6 i => rw [Function.update_of_ne (hother rfl)]
  case h_7 i _ => rw [Function.update_of_ne (hother rfl)]
  all_goals simp

/-! ## The invariant -/

/-- Every thread goes about what it holds as its contract says; what is served is held, and given to a listener. -/
structure HoldInv (m : Ledger) : Prop where
  count     : m.senders.length = m.daemon.senders.length
  main      : m.daemon.main.Ok servingContract (fun _ _ => True) m.serving
  serves    : m.serving = true ↔ m.holds .main ≠ []
  senders   : ∀ (i : Nat) (t : Thread heapI SenderLoc), m.senders[i]? = some t →
    t.Ok holdContract HoldsAt (m.holds (.sender i)) ∧ (t.loc = .exited → t.rest = .ret .exited)
  listeners : ∀ i < m.daemon.listeners.length, m.holds (.listener i) ≠ []
  lockers   : m.daemon.exited = false → ∀ (j : Nat) (k : LockThread), m.daemon.lockers[j]? = some k →
    k.thread.Ok displayContract DisplayAt (m.holds (.locker j)) ∧ (k.thread.loc = .unlocked → k.thread.rest = .ret .unlocked)
  idle      : ∀ j, m.daemon.lockers.length ≤ j → m.holds (.locker j) = []

theorem holdInv_init (cfg : Config) (conn args : Bytes) : HoldInv (init cfg conn args) where
  count     := rfl
  main      := serving_verified (.entry conn args) false trivial
  serves    := by simp [init]
  senders   := fun i t ht => by simp [init] at ht
  listeners := fun i hi => by simp [init, Daemon.init] at hi
  lockers   := fun _ j k hk => by simp [init, Daemon.init] at hk
  idle      := fun j _ => by simp [init]

theorem exited_done : spawnSenderThreadHeap .exited = .ret .exited := rfl

theorem unlocked_done : spawnLockThread .unlocked = .ret .unlocked := rfl

/-- A statement of a sender. -/
theorem holdInv_stmt (hinv : HoldInv m) {i : Nat} {st : Stmt} (h : Step m (.stmt i st) m') : HoldInv m' := by
  obtain ⟨t, t', ht, hf, rfl⟩ := step_stmt h
  obtain ⟨hok, hdone⟩ := hinv.senders i t ht
  constructor
  · exact (List.length_set).trans hinv.count
  · exact hinv.main
  · simpa using hinv.serves
  · intro j u hu
    rcases getElem?_set_cases hu with ⟨rfl, rfl⟩ | ⟨hij, hu⟩
    · refine ⟨?_, Thread.fire_done exited_done hdone hf⟩
      simp only [Function.update_self]
      exact hok.did hf rfl
    · have hother : Owner.sender j ≠ .sender i := by
        rintro ⟨⟩
        exact hij rfl
      simp only [Function.update_of_ne hother]
      exact hinv.senders j u hu
  · simpa using hinv.listeners
  · simpa using hinv.lockers
  · simpa using hinv.idle

section Call

variable {s : Daemon} {ts : List (Thread heapI SenderLoc)}

/-- What the main thread holds after an event is what it serves. -/
theorem serves_call (hinv : HoldInv m) (h : Daemon.Step m.daemon e s) :
    servingAfter m.serving e = true ↔ m.holdsAfter e .main ≠ [] := by
  have hserves := hinv.serves
  unfold holdsAfter
  split
  case h_1 fd =>
    show decide (0 ≤ (show Int from fd)) = true ↔ _
    rw [Function.update_self, decide_eq_true_iff]
    unfold gain
    split
    · next hneg => simpa using hneg
    · next hpos => simpa using hpos
  case h_2 fd =>
    have hserving : m.serving = true := by
      obtain ⟨t, sh, hf, -, -⟩ := Daemon.step_main h
      exact hinv.main.pre hf
    obtain ⟨r, hr⟩ := List.exists_mem_of_ne_nil _ (hserves.mp hserving)
    rw [Function.update_self]
    exact iff_of_true hserving (List.ne_nil_of_mem (mem_gain hr))
  case h_3 slot args _ =>
    rw [Function.update_self]
    exact iff_of_false Bool.false_ne_true fun h => h rfl
  case h_4 => simpa [servingAfter] using hserves
  case h_5 => simpa [servingAfter] using hserves
  case h_6 => simpa [servingAfter] using hserves
  case h_7 => simpa [servingAfter] using hserves
  case h_8 haccept _ hlistener _ _ _ _ =>
    have hsame : servingAfter m.serving e = m.serving := by
      unfold servingAfter
      split
      · exact absurd rfl (haccept _)
      · exact absurd rfl (hlistener _ _ _)
      · rfl
    rw [hsame]
    exact hserves

/-- The senders go about what they hold as they should. -/
theorem senders_call (hinv : HoldInv m) (hts : m.follow e = some ts) {i : Nat} {t' : Thread heapI SenderLoc}
    (ht' : ts[i]? = some t') :
    t'.Ok holdContract HoldsAt (m.holdsAfter e (.sender i)) ∧ (t'.loc = .exited → t'.rest = .ret .exited) := by
  rcases follow_cases hts ht' with ⟨ht, hne⟩ | ⟨a, t, rfl, ht, hf⟩ | ⟨rfl, rfl, rfl⟩
  · have hlt : i < m.daemon.senders.length := by
      rw [← hinv.count]
      exact (List.getElem?_eq_some_iff.mp ht).1
    rw [holds_sender hne fun _ => Nat.ne_of_lt hlt]
    exact hinv.senders i t' ht
  · obtain ⟨hok, hdone⟩ := hinv.senders i t ht
    refine ⟨?_, Thread.fire_done exited_done hdone hf⟩
    cases a with
    | jump l => exact hok.jump hold_verified hf
    | did c r =>
        show t'.Ok _ _ (Function.update m.holds (.sender i) _ (.sender i))
        rw [Function.update_self]
        exact hok.did hf rfl
  · refine ⟨?_, fun hloc => by cases hloc⟩
    show (Thread.start _ _).Ok _ _ (Function.update m.holds (.sender m.daemon.senders.length) _ _)
    rw [hinv.count, Function.update_self]
    exact Thread.ok_start hold_verified List.mem_cons_self

/-- The lock threads likewise, while the process lives. -/
theorem lockers_call (hinv : HoldInv m) (h : Daemon.Step m.daemon e s) (hx : s.exited = false) {j : Nat}
    {k' : LockThread} (hk' : s.lockers[j]? = some k') :
    k'.thread.Ok displayContract DisplayAt (m.holdsAfter e (.locker j)) ∧
      (k'.thread.loc = .unlocked → k'.thread.rest = .ret .unlocked) := by
  have hlive := Daemon.step_running h
  rcases Daemon.locker_cases h hk' with ⟨hk, hne⟩ | ⟨a, k, rfl, hk, -, hf⟩ | ⟨rfl, i, rfl, rfl⟩
  · rw [holds_locker hne]
    exact hinv.lockers hlive j k' hk
  · obtain ⟨hok, hdone⟩ := hinv.lockers hlive j k hk
    refine ⟨?_, Thread.fire_done unlocked_done hdone hf⟩
    cases a with
    | jump l => exact hok.jump display_verified hf
    | did c r =>
        refine hok.did hf ?_
        cases c with
        | openDisplay =>
            cases r with
            | true => exact Function.update_self ..
            | false => exact rfl
        | closeDisplay => exact Function.update_self ..
        | exit =>
            obtain ⟨d, t, sh, -, -, -, rfl⟩ := Daemon.step_locker h
            cases hx
        | _ => exact rfl
  · refine ⟨?_, fun hloc => by cases hloc⟩
    have hidle : m.holdsAfter (.sender i (.did .createLock ())) (.locker m.daemon.lockers.length) = [] := by
      rw [holds_locker (by simp)]
      exact hinv.idle _ (Nat.le_refl _)
    rw [hidle]
    exact display_verified .entry [] rfl

/-- There are as many senders with statements as there are senders. -/
theorem count_call (hinv : HoldInv m) (h : Daemon.Step m.daemon e s) (hts : m.follow e = some ts) :
    ts.length = s.senders.length := by
  unfold follow at hts
  split at hts
  · obtain ⟨t, -, hts⟩ := Option.bind_eq_some_iff.mp hts
    obtain ⟨t', -, rfl⟩ := Option.map_eq_some_iff.mp hts
    rw [List.length_set, hinv.count, Daemon.senders_length h (by simp)]
  · cases hts
    rw [Daemon.senders_create h, List.length_append, List.length_append, hinv.count]
    rfl
  · rename_i hcreate
    cases hts
    rw [hinv.count, Daemon.senders_length h fun he => hcreate () he]

/-- A listener holds something from its creation. -/
theorem listeners_call (hinv : HoldInv m) (h : Daemon.Step m.daemon e s) {i : Nat} (hi : i < s.listeners.length) :
    m.holdsAfter e (.listener i) ≠ [] := by
  have hold : i < m.daemon.listeners.length →
      (∀ slot args, e = .main (.did (.createListener slot args) ()) → i ≠ m.daemon.listeners.length) →
      m.holdsAfter e (.listener i) ≠ [] := by
    intro hlt hnew
    rw [holds_listener hnew]
    exact hinv.listeners i hlt
  rcases Daemon.listener_cases h (List.getElem?_eq_getElem hi) with ⟨hd, -⟩ | ⟨a, d, he, hd, -⟩ | ⟨rfl, slot, args, rfl, -⟩
  · have hlt := (List.getElem?_eq_some_iff.mp hd).1
    exact hold hlt fun _ _ _ => Nat.ne_of_lt hlt
  · exact hold (List.getElem?_eq_some_iff.mp hd).1 fun slot args hnew => by simp [he] at hnew
  · -- it is given what is served
    have hserving : m.serving = true := by
      obtain ⟨t, sh, hf, -, -⟩ := Daemon.step_main h
      exact hinv.main.pre hf
    show Function.update (Function.update m.holds (.listener m.daemon.listeners.length) (m.holds .main)) .main []
      (.listener m.daemon.listeners.length) ≠ []
    rw [Function.update_of_ne (by simp), Function.update_self]
    exact hinv.serves.mp hserving

/-- Nobody holds anything for a lock thread that is yet to come. -/
theorem idle_call (hinv : HoldInv m) (h : Daemon.Step m.daemon e s) {j : Nat} (hj : s.lockers.length ≤ j) :
    m.holdsAfter e (.locker j) = [] := by
  have hle : m.daemon.lockers.length ≤ j := Nat.le_trans (Daemon.lockers_length_le h) hj
  rw [holds_locker]
  · exact hinv.idle j hle
  · rintro a rfl
    obtain ⟨k, t, sh, hk, -⟩ := Daemon.step_locker h
    exact absurd (List.getElem?_eq_some_iff.mp hk).1 (Nat.not_lt.mpr hle)

/-- An event of the daemon. -/
theorem holdInv_call (hinv : HoldInv m) (h : Step m (.call e) m') : HoldInv m' := by
  obtain ⟨s, ts, hs, hts, rfl⟩ := step_call h
  constructor
  · exact count_call hinv hs hts
  · refine Daemon.mainOk_step hs hinv.main (fun l he _ => ?_) (fun c r he _ => ?_) fun hne => ?_
    · subst he
      exact serving_verified l _ trivial
    · subst he
      exact rfl
    · unfold servingAfter
      split
      · exact absurd rfl (hne _)
      · exact absurd rfl (hne _)
      · rfl
  · exact serves_call hinv hs
  · exact fun i t' ht' => senders_call hinv hts ht'
  · exact fun i hi => listeners_call hinv hs hi
  · exact fun hx j k' hk' => lockers_call hinv hs hx hk'
  · exact fun j hj => idle_call hinv hs hj

end Call

/-- **Step lemma.** -/
theorem holdInv_step {e : LedgerEvent} (hinv : HoldInv m) (h : Step m e m') : HoldInv m' := by
  cases e with
  | call e => exact holdInv_call hinv h
  | stmt i st => exact holdInv_stmt hinv h

/-! ## The law -/

/-- The thread has not ended; what is nobody's has no owner that lives. -/
def Live (m : Ledger) : Owner → Prop
  | .server | .main => True
  | .sender i       => ∃ t, m.senders[i]? = some t ∧ t.loc ≠ .exited
  | .listener i     => ∃ d, m.daemon.listeners[i]? = some d ∧ d.thread.loc.alive = true
  | .locker j       => ∃ k, m.daemon.lockers[j]? = some k ∧ k.thread.loc ≠ .unlocked
  | .nobody         => False

/-- The receiving side reads the end of a sender's stream: no descriptor of its socket is open any more. -/
def EndSeen (m : Ledger) (i : Nat) : Prop := ∀ fd, Resource.socket fd ∉ m.holds (.sender i)

/-- Everything is given back by the end of its owner. -/
structure Released (m : Ledger) : Prop where
  /-- A sender that has ended has closed its socket and its devices, and freed the array and its arguments. -/
  senders     : ∀ i t, m.senders[i]? = some t → t.loc = .exited → m.holds (.sender i) = []
  /-- A connection that was not given to a listener was closed before the next `accept`. -/
  connections : m.holds .nobody = []
  /-- What is open is the listening socket, or belongs to a live thread. -/
  open_live   : ∀ o, m.holds o ≠ [] → o = .server ∨ m.Live o
  /-- A stream whose sender has ended is seen to have ended. -/
  streams     : ∀ i t, m.senders[i]? = some t → t.loc = .exited → m.EndSeen i

/-- The law is about the owners. -/
theorem released_live : Released m ↔ ∀ o, m.holds o ≠ [] → m.Live o := by
  constructor
  · intro h o ho
    rcases h.open_live o ho with rfl | hlive
    · trivial
    · exact hlive
  · intro h
    have hsenders : ∀ i t, m.senders[i]? = some t → t.loc = .exited → m.holds (.sender i) = [] := by
      intro i t ht hloc
      by_contra hheld
      obtain ⟨t', ht', hloc'⟩ := h (.sender i) hheld
      obtain rfl : t = t' := Option.some.inj (ht.symm.trans ht')
      exact hloc' hloc
    refine ⟨hsenders, ?_, fun o ho => .inr (h o ho), ?_⟩
    · by_contra hheld
      exact h .nobody hheld
    · intro i t ht hloc fd hfd
      rw [hsenders i t ht hloc] at hfd
      cases hfd

/-- No sender and no listener ends, and a connection is accepted only when the one before was given to a listener. -/
def Keeps (m : Ledger) : LedgerEvent → Prop
  | .call (.sender _ (.jump l))    => l ≠ .exited
  | .call (.listener _ (.jump l))  => l ≠ .exited
  | .call (.main (.did .accept _)) => m.serving = false
  | _                              => True

instance (m : Ledger) (e : LedgerEvent) : Decidable (m.Keeps e) := by
  unfold Keeps
  split <;> infer_instance

section Law

variable {s : Daemon} {ts : List (Thread heapI SenderLoc)} (hinv : HoldInv m) (hok : Released m)
include hinv hok

/-- What a sender holds after an event that keeps the law, it holds while it lives. -/
theorem sender_live (h : Daemon.Step m.daemon e s) (hts : m.follow e = some ts) (hkeeps : Keeps m (.call e)) {i : Nat}
    (hheld : m.holdsAfter e (.sender i) ≠ []) : ∃ t', ts[i]? = some t' ∧ t'.loc ≠ .exited := by
  have hle : m.senders.length ≤ ts.length := by
    rw [hinv.count, count_call hinv h hts]
    exact Daemon.senders_length_le h
  by_cases hi : i < ts.length
  · refine ⟨ts[i], List.getElem?_eq_getElem hi, fun hloc => ?_⟩
    rcases follow_cases hts (List.getElem?_eq_getElem hi) with ⟨ht, hne⟩ | ⟨a, t, rfl, ht, hf⟩ | ⟨-, -, hnew⟩
    · have hlt : i < m.daemon.senders.length := by
        rw [← hinv.count]
        exact (List.getElem?_eq_some_iff.mp ht).1
      rw [holds_sender hne fun _ => Nat.ne_of_lt hlt] at hheld
      exact hheld (hok.senders i _ ht hloc)
    · cases a with
      | jump l =>
          rw [Thread.jump_start hf] at hloc
          exact hkeeps hloc
      | did c r =>
          rw [Thread.did_loc hf] at hloc
          exact Thread.did_rest hf _ ((hinv.senders i t ht).2 hloc)
    · rw [hnew] at hloc
      cases hloc
  · -- there is no such sender, before or after
    have hold : m.holdsAfter e (.sender i) = m.holds (.sender i) := by
      apply holds_sender
      · rintro a rfl
        obtain ⟨d, t, sh, hd, -⟩ := Daemon.step_sender h
        have hlt := (List.getElem?_eq_some_iff.mp hd).1
        rw [← hinv.count] at hlt
        exact hi (Nat.lt_of_lt_of_le hlt hle)
      · rintro rfl rfl
        rw [count_call hinv h hts, Daemon.senders_create h] at hi
        simp at hi
    rw [hold] at hheld
    obtain ⟨t, ht, -⟩ := released_live.mp hok _ hheld
    exact absurd (Nat.lt_of_lt_of_le (List.getElem?_eq_some_iff.mp ht).1 hle) hi

/-- Likewise for a listener. -/
theorem listener_live (h : Daemon.Step m.daemon e s) (hkeeps : Keeps m (.call e)) {i : Nat}
    (hheld : m.holdsAfter e (.listener i) ≠ []) : ∃ d', s.listeners[i]? = some d' ∧ d'.thread.loc.alive = true := by
  have halive : ∀ {d : ListenerThread}, m.daemon.listeners[i]? = some d → d.thread.loc.alive = true := by
    intro d hd
    obtain ⟨d₀, hd₀, hlive⟩ := released_live.mp hok _ (hinv.listeners i (List.getElem?_eq_some_iff.mp hd).1)
    obtain rfl : d = d₀ := Option.some.inj (hd.symm.trans hd₀)
    exact hlive
  by_cases hi : i < s.listeners.length
  · refine ⟨s.listeners[i], List.getElem?_eq_getElem hi, ?_⟩
    rcases Daemon.listener_cases h (List.getElem?_eq_getElem hi) with ⟨hd, -⟩ | ⟨a, d, rfl, hd, -, -, hf⟩ |
      ⟨-, slot, args, -, hnew⟩
    · exact halive hd
    · cases a with
      | jump l =>
          rw [Thread.jump_start hf]
          cases l with
          | loop packet => rfl
          | exited => exact absurd rfl hkeeps
      | did c r =>
          rw [Thread.did_loc hf]
          exact halive hd
    · rw [hnew]
      rfl
  · have hle := Daemon.listeners_length_le h
    have hold : m.holdsAfter e (.listener i) = m.holds (.listener i) := by
      apply holds_listener
      rintro slot args rfl rfl
      obtain ⟨t, sh, -, -, rfl⟩ := Daemon.step_main h
      simp [Daemon.newListeners] at hi
    rw [hold] at hheld
    obtain ⟨d, hd, -⟩ := released_live.mp hok _ hheld
    exact absurd (Nat.lt_of_lt_of_le (List.getElem?_eq_some_iff.mp hd).1 hle) hi

omit hok in
/-- A lock thread holds nothing when it has ended, whatever happens. -/
theorem locker_live (h : Daemon.Step m.daemon e s) {j : Nat} (hheld : m.holdsAfter e (.locker j) ≠ []) :
    ∃ k', s.lockers[j]? = some k' ∧ k'.thread.loc ≠ .unlocked := by
  have hlive := Daemon.step_running h
  by_cases hj : j < s.lockers.length
  · refine ⟨s.lockers[j], List.getElem?_eq_getElem hj, fun hloc => ?_⟩
    rcases Daemon.locker_cases h (List.getElem?_eq_getElem hj) with ⟨hk, hne⟩ | ⟨a, k, rfl, hk, -, hf⟩ | ⟨-, i, -, hnew⟩
    · obtain ⟨hok, hdone⟩ := hinv.lockers hlive j _ hk
      rw [holds_locker hne] at hheld
      exact hheld (hok.of_ret (hdone hloc))
    · obtain ⟨hok, hdone⟩ := hinv.lockers hlive j k hk
      cases a with
      | jump l =>
          rw [Thread.jump_start hf] at hloc
          obtain rfl : l = .unlocked := hloc
          exact hheld (hok.label hf)
      | did c r =>
          rw [Thread.did_loc hf] at hloc
          exact Thread.did_rest hf _ (hdone hloc)
    · rw [hnew] at hloc
      cases hloc
  · exact absurd (idle_call hinv h (Nat.not_lt.mp hj)) hheld

/-- **What keeps the law.** -/
theorem released_call (h : Step m (.call e) m') (hkeeps : Keeps m (.call e)) : Released m' := by
  obtain ⟨s, ts, hs, hts, rfl⟩ := step_call h
  apply released_live.mpr
  intro o hheld
  cases o with
  | server | main => trivial
  | sender i => exact sender_live hinv hok hs hts hkeeps hheld
  | listener i => exact listener_live hinv hok hs hkeeps hheld
  | locker j => exact locker_live hinv hs hheld
  | nobody =>
      apply hheld
      by_cases haccept : ∃ fd : Int, e = .main (.did .accept fd)
      · obtain ⟨fd, rfl⟩ := haccept
        have hmain : m.holds .main = [] := by
          by_contra hmain
          have hserving := hinv.serves.mpr hmain
          rw [show m.serving = false from hkeeps] at hserving
          cases hserving
        show m.holdsAfter (.main (.did .accept fd)) .nobody = []
        rw [nobody_accept, hok.connections, hmain]
        rfl
      · exact (holds_nobody fun fd he => haccept ⟨fd, he⟩).trans hok.connections

/-- So does a statement: the sender that executes it has not ended. -/
theorem released_stmt {i : Nat} {st : Stmt} (h : Step m (.stmt i st) m') : Released m' := by
  obtain ⟨t, t', ht, hf, rfl⟩ := step_stmt h
  apply released_live.mpr
  intro o hheld
  by_cases ho : o = .sender i
  · subst ho
    refine ⟨t', List.getElem?_set_self (List.getElem?_eq_some_iff.mp ht).1, fun hloc => ?_⟩
    rw [Thread.did_loc hf] at hloc
    exact Thread.did_rest hf _ ((hinv.senders i t ht).2 hloc)
  · have hlive : m.Live o := by
      refine released_live.mp hok o ?_
      simpa [Function.update_of_ne ho] using hheld
    cases o with
    | sender j =>
        have hij : i ≠ j := by
          rintro rfl
          exact ho rfl
        obtain ⟨u, hu, hloc⟩ := hlive
        exact ⟨u, (List.getElem?_set_ne hij).trans hu, hloc⟩
    | _ => exact hlive

/-- **Step lemma.** A step keeps the law iff it is one of those. -/
theorem released_step {e : LedgerEvent} (h : Step m e m') : Keeps m e ↔ Released m' := by
  cases e with
  | stmt i st => exact iff_of_true trivial (released_stmt hinv hok h)
  | call e =>
      refine ⟨released_call hinv hok h, ?_⟩
      intro hok'
      obtain ⟨s, ts, hs, hts, rfl⟩ := step_call h
      unfold Keeps
      split
      · rename_i i l heq
        cases heq
        rintro rfl
        -- the sender that ends holds something
        obtain ⟨t, ht, hts⟩ := Option.bind_eq_some_iff.mp hts
        obtain ⟨t', hf, rfl⟩ := Option.map_eq_some_iff.mp hts
        have hheld : m.holds (.sender i) ≠ [] := (hinv.senders i t ht).1.label hf
        have hend := hok'.senders i t' (List.getElem?_set_self (List.getElem?_eq_some_iff.mp ht).1)
          (by rw [Thread.jump_start hf]; rfl)
        exact hheld hend
      · rename_i i l heq
        cases heq
        rintro rfl
        obtain ⟨d, t, sh, hd, hf, -, rfl⟩ := Daemon.step_listener hs
        have hlt := (List.getElem?_eq_some_iff.mp hd).1
        obtain ⟨d', hd', halive⟩ := released_live.mp hok' (.listener i) (hinv.listeners i hlt)
        obtain rfl : _ = d' := Option.some.inj ((List.getElem?_set_self hlt).symm.trans hd')
        rw [Thread.jump_start hf] at halive
        cases halive
      · rename_i fd heq
        cases heq
        -- what is served would be nobody's
        by_contra hserving
        have hmain := hinv.serves.mp (Bool.not_eq_false _ ▸ hserving)
        have hnobody : m.holds .nobody ++ m.holds .main = [] := (nobody_accept fd).symm.trans hok'.connections
        exact hmain (List.append_eq_nil_iff.mp hnobody).2
      · trivial

end Law

theorem holdInv_run {cfg : Config} {conn args : Bytes} {tr : List LedgerEvent}
    (h : Run Step (init cfg conn args) tr m) : HoldInv m :=
  h.invariant (holdInv_init cfg conn args) fun _ _ _ hinv hs => holdInv_step hinv hs

/-- **Everything is given back** throughout a run iff no sender and no listener ends in it, and every connection is
    given to a listener before the next is accepted. -/
theorem released_iff {cfg : Config} {conn args : Bytes} {tr : List LedgerEvent}
    (h : Run Step (init cfg conn args) tr m) :
    (∀ tr₁ m₁, tr₁ <+: tr → Run Step (init cfg conn args) tr₁ m₁ → Released m₁) ↔
      Run (Restrict Keeps Step) (init cfg conn args) tr m := by
  have h0 : Released (init cfg conn args) := by
    apply released_live.mpr
    intro o hheld
    cases o with
    | server | main => trivial
    | _ => simp [init] at hheld
  have hdet : ∀ a e b b', Step a e b → Step a e b' → b = b' := fun _ _ _ _ => step_unique
  refine h.restrict_iff hdet (holdInv_init cfg conn args) h0 ?_ ?_
  · intro a e b hinv hs
    exact holdInv_step hinv hs
  · intro a e b hinv hok hs
    exact released_step hinv hok hs

open Daemon (boot order startEvents stopEvents joinEvents leaveEvents senderCall emptyConfig)

/-- Sender `i` with `emptyConfig` connects, allocates the array and gets to its loop. -/
def joinHeap (i : Nat) : List LedgerEvent :=
  ((joinEvents i).take 8).map .call ++ .stmt i (.malloc .deviceFds) :: ((joinEvents i).drop 8).map .call

/-- It leaves its loop and ends. -/
def endHeap (i : Nat) : List LedgerEvent :=
  (leaveEvents i ++ [senderCall i .joinLock ()]).map .call ++
    [.stmt i (.free .senderArgs), .stmt i (.free .deviceFds), .call (.sender i (.jump .exited))]

/-- One START, whose sender is in its loop. -/
theorem released_iff_start :
    ∃ m, Run Step (init emptyConfig [] []) ((boot ++ order .start startEvents).map .call ++ joinHeap 0) m ∧
      Released m := by
  have hexec : (execs (guarded Keeps exec) (init emptyConfig [] [])
      ((boot ++ order .start startEvents).map .call ++ joinHeap 0)).map (·.senders.length) = some 1 := by
    decide +kernel
  obtain ⟨m, hrun, -⟩ := Run.exists_of_execs_guarded hexec
  exact ⟨m, hrun.of_restrict, (released_iff hrun.of_restrict).mpr hrun _ m (List.prefix_refl _) hrun.of_restrict⟩

/-- **A START and a STOP**: the sender has freed its blocks and ended, and its socket is open; so are the connections of
    the commands. -/
theorem socket_kept :
    ∃ m, Run Step (init emptyConfig [] [])
        ((boot ++ order .start startEvents).map .call ++ joinHeap 0 ++ (order .stop stopEvents).map .call ++ endHeap 0) m ∧
      m.senders.map (·.loc) = [.exited] ∧ m.holds (.sender 0) = [.socket 3] ∧ m.holds .nobody = [.socket 4] ∧
      ¬ Released m := by
  have hexec : (execs exec (init emptyConfig [] [])
        ((boot ++ order .start startEvents).map .call ++ joinHeap 0 ++ (order .stop stopEvents).map .call ++ endHeap 0)).map
      (fun m => (m.senders.map (·.loc), m.holds (.sender 0), m.holds .nobody)) =
      some ([.exited], [.socket 3], [.socket 4]) := by
    decide +kernel
  obtain ⟨m, hrun, hfin⟩ := Run.exists_of_execs hexec
  simp only [Prod.mk.injEq] at hfin
  obtain ⟨hlocs, hsender, hnobody⟩ := hfin
  refine ⟨m, hrun, hlocs, hsender, hnobody, ?_⟩
  intro hreleased
  have hnone := hreleased.connections
  rw [hnobody] at hnone
  cases hnone

end Ledger

end IOSwitch
