import IOSwitch.Daemon.Lockout

/-!
# `Daemon.Survival` — what ends the daemon

The daemon should end with KILL. It also ends when `recv` fails on a connection, since `run_server` then
returns, and when a lock thread does not get its grabs, since `lock` then calls `exit`. Under what X11 promises
(`XServer`) these are the only other ends: `only_kill_ends` says that without them (`Calm`) nothing but KILL,
or a failing `listen` or `accept`, ends the daemon, and that after one of them it can end at any time.

## Contents
- `returnContract`, `tallyContract` — after which answers the main thread returns and a lock thread exits.
- `SurvivalInv`, `survivalInv_run` — both, for every run.
- `doomed_exits` — a lock thread that has failed goes on to `exit`.
- `only_kill_ends`, `ended_without_kill`.
-/

namespace IOSwitch

open Lib Server HostLock

/-! ## When `run_server` returns -/

/-- What the main thread has been through: a `recv` that failed; a KILL, or a `listen` or `accept` that failed. -/
structure ReturnView where
  recvFailed : Bool
  excused    : Bool

/-- After a failed `recv` no call is made. -/
def returnContract : Contract serverI ReturnView where
  pre g _ := g.recvFailed = false
  post g c r g' := match c, r with
    | .listen, r     => g' = { g with excused := g.excused || decide (r < 0) }
    | .accept, r     => g' = { g with excused := g.excused || decide (r < 0) }
    | .recvConn _, r => g' = { g with recvFailed := g.recvFailed || decide (r.ret < 0) }
    | .recvArgs _, r => g' = { g with recvFailed := g.recvFailed || decide (r.ret < 0) }
    | _, _           => g' = g

/-- `run_server` has returned for one of these reasons, and a failed `recv` makes it return. -/
def Returns : ServerLoc → ReturnView → Prop
  | .returned _, g => g.recvFailed = true ∨ g.excused = true
  | _, g           => g.recvFailed = false

variable {g : ReturnView}

theorem acceptConn_returns (fd : Int) (conn args : Bytes) (hg : g.recvFailed = false) :
    wp returnContract (acceptConn fd conn args) (fun g' l => Returns l g') g := by
  unfold acceptConn
  split
  · have hkeep := wp_neutral (C := returnContract) (g := g) (acceptInput_forInput fd conn) fun c hc => by
      cases c with
      | wild => exact ⟨hg, fun r => r.elim⟩
      | listen | accept | recvConn _ | recvArgs _ => exact hc.elim
      | _ => exact ⟨hg, fun _ _ h => h⟩
    apply wp_seq hkeep
    rintro g' _ ⟨rfl, -⟩
    exact hg
  · refine ⟨hg, ?_⟩
    rintro r _ rfl
    show wp _ (if r.ret < 0 then _ else _) _ _
    by_cases hr : r.ret < 0
    · rw [if_pos hr]
      exact Or.inl (by simp [hr])
    · rw [if_neg hr]
      show _ = false
      simp [hg, hr]
  · exact hg

/-- **A block outside the handlers** returns for a reason. -/
theorem block_returns {l : ServerLoc} (hl : l.handling = false) (hg : Returns l g) :
    wp returnContract (runServer l) (fun g' l' => Returns l' g') g := by
  cases l with
  | entry conn args =>
      refine ⟨hg, ?_⟩
      rintro r _ rfl
      show wp _ (if r < 0 then _ else _) _ _
      by_cases hr : r < 0
      · rw [if_pos hr]
        exact Or.inr (by simp [hr])
      · rw [if_neg hr]
        exact hg
  | loop conn args =>
      refine ⟨hg, ?_⟩
      rintro fd _ rfl
      show wp _ (if fd < 0 then _ else _) _ _
      by_cases hfd : fd < 0
      · rw [if_pos hfd]
        exact Or.inr (by simp [hfd])
      rw [if_neg hfd]
      refine ⟨hg, ?_⟩
      rintro r _ rfl
      show wp _ (if r.ret < 0 then _ else _) _ _
      by_cases hr : r.ret < 0
      · rw [if_pos hr]
        exact Or.inl (by simp [hr])
      · rw [if_neg hr]
        apply acceptConn_returns
        have hg : g.recvFailed = false := hg
        simp [hg, hr]
  | handle conn args => cases hl
  | returned code => exact hg

/-- **A handler** makes `run_server` return only if it is that of KILL. -/
theorem handle_returns {conn args : Bytes} (hg : g.recvFailed = false)
    (hkill : (CommandArgs.ofMem args).type = .kill → g.excused = true) :
    wp returnContract (runServer (.handle conn args)) (fun g' l' => Returns l' g') g := by
  have hneutral := wp_commands (C := returnContract) (g := g) (CommandArgs.ofMem args) hg fun c hc => by
    cases c with
    | lockSender | unlockSender | sending | setSending _ | freeConfig | loadConfig _ | createSender
    | printf _ => exact ⟨hg, fun _ _ h => h⟩
    | _ => exact absurd trivial hc
  apply wp_seq hneutral
  rintro g' result ⟨rfl, hresult⟩
  show Returns (if result = 1 then _ else _) g'
  split
  · exact Or.inr (hkill (hresult ‹_›))
  · exact hg

/-! ## When a lock thread exits -/

/-- How often a lock thread was refused the keyboard, and whether it was refused the display or the pointer. -/
structure LockTally where
  refused : Nat
  denied  : Bool

/-- What makes `lock` exit. -/
def LockTally.Doomed (g : LockTally) : Prop := 100 ≤ g.refused ∨ g.denied = true

/-- The calls on the way to `exit`. -/
def LockCall.GivesUp : LockCall → Prop
  | select | ungrabKeyboard | exit => True
  | _                              => False

/-- A lock thread exits only when doomed, and then does nothing else. `exit` does not return. -/
def tallyContract : Contract lockI LockTally where
  pre g c := (g.Doomed → c.GivesUp) ∧ (c = .exit → g.Doomed)
  post g c r g' := match c, r with
    | .openDisplay, ok  => g' = { g with denied := g.denied || !ok }
    | .grabKeyboard, ok => g' = { g with refused := g.refused + if ok then 0 else 1 }
    | .grabPointer, ok  => g' = { g with denied := g.denied || !ok }
    | .exit, _          => False
    | _, _              => g' = g

/-- Between blocks nothing has gone wrong. -/
def Undoomed : LockLoc → LockTally → Prop
  | .entry, g => g = ⟨0, false⟩
  | _, g      => ¬ g.Doomed

/-- **The attempts to grab the keyboard** doom the thread iff all fail. -/
theorem grabKeyboard_tally (n m : Nat) (hn : n + m = 100) :
    wp tallyContract (grabKeyboard n)
      (fun g ok => g.denied = false ∧ (ok = true → g.refused < 100) ∧ (ok = false → 100 ≤ g.refused)) ⟨m, false⟩ := by
  induction n generalizing m with
  | zero => exact ⟨rfl, by simp, by simp; omega⟩
  | succ n ih =>
      have hfresh : ¬ (⟨m, false⟩ : LockTally).Doomed := by simp [LockTally.Doomed]; omega
      refine ⟨⟨fun h => absurd h hfresh, by simp⟩, ?_⟩
      rintro ok _ rfl
      cases ok with
      | true => exact ⟨rfl, by simp; omega, by simp⟩
      | false =>
          refine ⟨⟨fun _ => trivial, by simp⟩, ?_⟩
          rintro _ _ rfl
          exact ih (m + 1) (by omega)

theorem lock_tally : wp tallyContract lock (fun g _ => ¬ g.Doomed) ⟨0, false⟩ := by
  have hfresh : ¬ (⟨0, false⟩ : LockTally).Doomed := by simp [LockTally.Doomed]
  have hexit : ∀ {g : LockTally}, g.Doomed → tallyContract.pre g .exit := fun h => ⟨fun _ => trivial, fun _ => h⟩
  refine ⟨⟨fun h => absurd h hfresh, by simp⟩, ?_⟩
  rintro opened _ rfl
  show wp _ (exitUnless opened >>= _) _ _
  apply wp_seq (wp_exitUnless (fun h => hexit (.inr (by simp [h]))) fun _ _ => id)
  rintro _ _ ⟨rfl, rfl⟩
  apply wp_seq (grabKeyboard_tally 100 0 rfl)
  rintro g ok ⟨hdenied, hgot, hlost⟩
  apply wp_seq (wp_exitUnless (fun h => hexit (.inl (hlost h))) fun _ _ => id)
  rintro g _ ⟨rfl, rfl⟩
  have hsafe : ¬ g.Doomed := by simpa [LockTally.Doomed, hdenied] using hgot rfl
  refine ⟨⟨fun h => absurd h hsafe, by simp⟩, ?_⟩
  rintro pointer _ rfl
  cases pointer with
  | true =>
      show ¬ LockTally.Doomed _
      simpa [LockTally.Doomed, hdenied] using hgot rfl
  | false =>
      refine ⟨⟨fun _ => trivial, by simp⟩, ?_⟩
      rintro _ _ rfl
      exact ⟨⟨fun _ => trivial, fun _ => Or.inr (by simp)⟩, fun _ _ h => h.elim⟩

/-- The calls of `try_unlock`. -/
def LockCall.Unlocks : LockCall → Prop
  | nextEvent | bell | ungrabKeyboard | closeDisplay => True
  | _                                                => False

theorem release_unlocks (bind : KeyBind) (locked : Bool) :
    (release bind locked).Within LockCall.Unlocks fun _ => True := by
  unfold release
  cases locked <;> simp [LockCall.Unlocks]

theorem tryUnlock_unlocks (bind : KeyBind) : (tryUnlock bind).Within LockCall.Unlocks fun _ => True := by
  refine ⟨trivial, ?_⟩
  intro ev
  cases ev with
  | keyPress time ks =>
      show Prog.Within _ _ (if time < 0 then ask .bell >>= fun _ => release bind true
        else release (press bind ks) (if (press bind ks).idx = (press bind ks).len then false else true))
      split
      · exact ⟨trivial, fun _ => release_unlocks _ _⟩
      · exact release_unlocks _ _
  | other => exact release_unlocks _ _

/-- **Every block of a lock thread** exits only when doomed. -/
theorem tally_verified : Thread.Verified tallyContract spawnLockThread Undoomed := by
  intro l g hg
  cases l with
  | entry =>
      obtain rfl : g = ⟨0, false⟩ := hg
      exact wp_seq lock_tally fun _ _ h => h
  | locked bind =>
      have hkeep := wp_neutral (C := tallyContract) (g := g) (tryUnlock_unlocks bind) fun c hc => by
        cases c with
        | nextEvent | bell | ungrabKeyboard | closeDisplay =>
            exact ⟨⟨fun h => absurd h hg, by simp⟩, fun _ _ h => h⟩
        | _ => exact hc.elim
      apply wp_seq hkeep
      rintro g' ⟨bind, locked⟩ ⟨rfl, -⟩
      show Undoomed (if locked = true then .locked bind else .unlocked) g'
      split <;> exact hg
  | unlocked => exact hg

namespace Daemon

variable {s s' : Daemon} {e : Event} {tr : List Event}

/-! ## What is assumed, and what goes wrong -/

/-- What X11 is assumed to do: the display opens, and a lock thread gets the keyboard iff no other has it. -/
def XServer (s : Daemon) : Event → Prop
  | .locker _ (.did .openDisplay ok)  => ok = true
  | .locker j (.did .grabKeyboard ok) => ok = true ↔ s.grab = none ∨ s.grab = some j
  | _                                 => True

instance (s : Daemon) (e : Event) : Decidable (XServer s e) := by
  unfold XServer
  split <;> infer_instance

/-- A `recv` of the accept loop fails. -/
def recvFails : Event → Bool
  | .main (.did (.recvConn _) r) => decide (r.ret < 0)
  | .main (.did (.recvArgs _) r) => decide (r.ret < 0)
  | _                            => false

/-- Lock thread `j` is refused the keyboard. -/
def refusedKeyboard (j : Nat) : Event → Bool
  | .locker i (.did .grabKeyboard ok) => decide (i = j) && !ok
  | _                                 => false

/-- Lock thread `j` is refused the pointer. -/
def refusedPointer (j : Nat) : Event → Bool
  | .locker i (.did .grabPointer ok) => decide (i = j) && !ok
  | _                                => false

/-- Lock thread `j` is refused the display. -/
def refusedDisplay (j : Nat) : Event → Bool
  | .locker i (.did .openDisplay ok) => decide (i = j) && !ok
  | _                                => false

/-- `listen` or `accept` fails. -/
def listenFails : Event → Bool
  | .main (.did .listen r) => decide (r < 0)
  | .main (.did .accept r) => decide (r < 0)
  | _                      => false

/-- Every `recv` succeeds, every lock thread gets the pointer, and none is refused the keyboard 100 times. -/
structure Calm (tr : List Event) : Prop where
  received : tr.any recvFails = false
  pointer  : ∀ j, tr.any (refusedPointer j) = false
  keyboard : ∀ j, tr.countP (refusedKeyboard j) < 100

/-- A KILL was served, or `listen` or `accept` has failed. -/
def Excused (tr : List Event) : Prop := .kill ∈ commandsOf tr ∨ tr.any listenFails = true

instance (tr : List Event) : Decidable (Excused tr) := inferInstanceAs (Decidable (_ ∨ _))

/-- The process has exited, or `run_server` returns. -/
def Ended (s : Daemon) : Prop := s.exited = true ∨ ∃ code, s.main.rest = .ret (.returned code)

/-- What `run_server` is about to return, or has returned. -/
def returning (s : Daemon) : Option Int := match s.main.rest with
  | .ret (.returned code) => some code
  | _                     => none

theorem ended_of_returning {code : Int} (h : returning s = some code) : Ended s := by
  unfold returning at h
  split at h
  · exact Or.inr ⟨_, ‹_›⟩
  · cases h

/-! ## The invariant -/

def returnView (tr : List Event) : ReturnView where
  recvFailed := tr.any recvFails
  excused    := tr.any fun e => listenFails e || decide (commandOf e = some .kill)

def tallyOf (j : Nat) (tr : List Event) : LockTally where
  refused := tr.countP (refusedKeyboard j)
  denied  := tr.any fun e => refusedDisplay j e || refusedPointer j e

theorem excused_iff : (returnView tr).excused = true ↔ Excused tr := by
  unfold returnView Excused commandsOf
  simp only [List.any_eq_true, Bool.or_eq_true, decide_eq_true_eq, List.mem_filterMap]
  constructor
  · rintro ⟨e, he, hlisten | hkill⟩
    · exact Or.inr ⟨e, he, hlisten⟩
    · exact Or.inl ⟨e, he, hkill⟩
  · rintro (⟨e, he, hkill⟩ | ⟨e, he, hlisten⟩)
    · exact ⟨e, he, Or.inr hkill⟩
    · exact ⟨e, he, Or.inl hlisten⟩

/-- The main thread keeps `returnContract`. While the process lives every lock thread keeps `tallyContract`, and
    it has ended through a doomed one. -/
structure SurvivalInv (tr : List Event) (s : Daemon) : Prop where
  main    : s.main.Ok returnContract Returns (returnView tr)
  lockers : s.exited = false → ∀ (j : Nat) (k : LockThread), s.lockers[j]? = some k →
    k.thread.Ok tallyContract Undoomed (tallyOf j tr)
  fresh   : ∀ j, s.lockers.length ≤ j → tallyOf j tr = ⟨0, false⟩
  exited  : s.exited = true → ∃ j, (tallyOf j tr).Doomed

theorem survivalInv_init (cfg : Config) (conn args : Bytes) : SurvivalInv [] (init cfg conn args) where
  main := block_returns (l := .entry conn args) (g := returnView []) rfl rfl
  lockers := fun _ _ _ hk => by simp [init] at hk
  fresh := fun _ _ => rfl
  exited := fun h => by cases h

/-- Steps of other threads leave the view of the main thread alone. -/
theorem returnView_frame (he : ∀ a, e ≠ .main a) : returnView (tr ++ [e]) = returnView tr := by
  cases e with
  | main a => exact absurd rfl (he a)
  | _ => simp [returnView, recvFails, listenFails, commandOf]

/-- Likewise for a lock thread. -/
theorem tallyOf_frame {j : Nat} (he : ∀ a, e ≠ .locker j a) : tallyOf j (tr ++ [e]) = tallyOf j tr := by
  cases e with
  | locker i a =>
      have hij : i ≠ j := by
        rintro rfl
        exact he a rfl
      cases a with
      | jump l => simp [tallyOf, refusedKeyboard, refusedPointer, refusedDisplay]
      | did c r =>
          cases c <;> simp [tallyOf, refusedKeyboard, refusedPointer, refusedDisplay, hij]
  | _ => simp [tallyOf, refusedKeyboard, refusedPointer, refusedDisplay]

theorem returnView_did {c : ServerCall} {r : c.Resp} :
    returnContract.post (returnView tr) c r (returnView (tr ++ [.main (.did c r)])) := by
  cases c with
  | wild => exact r.elim
  | _ => simp [returnContract, returnView, recvFails, listenFails, commandOf]

theorem tallyOf_did {j : Nat} {c : LockCall} {r : c.Resp} (hc : c ≠ .exit) :
    tallyContract.post (tallyOf j tr) c r (tallyOf j (tr ++ [.locker j (.did c r)])) := by
  cases c with
  | exit => exact absurd rfl hc
  | grabKeyboard =>
      cases r <;> simp [tallyContract, tallyOf, refusedKeyboard, refusedPointer, refusedDisplay]
  | _ => simp [tallyContract, tallyOf, refusedKeyboard, refusedPointer, refusedDisplay]

/-- A tally that has doomed its thread stays so. -/
theorem doomed_mono {j : Nat} (h : (tallyOf j tr).Doomed) : (tallyOf j (tr ++ [e])).Doomed := by
  rcases h with hrefused | hdenied
  · refine Or.inl (Nat.le_trans hrefused ?_)
    simp [tallyOf]
  · refine Or.inr ?_
    show List.any _ _ = true
    rw [List.any_append]
    exact Bool.or_eq_true_iff.mpr (Or.inl hdenied)

/-- **Step lemma.** -/
theorem survivalInv_step (hinv : SurvivalInv tr s) (h : Step s e s') : SurvivalInv (tr ++ [e]) s' := by
  have hx := step_running h
  constructor
  · apply mainOk_step h hinv.main
    · intro l he hl
      subst he
      by_cases hh : l.handling = true
      · cases l with
        | handle conn args =>
            have hl : (returnView tr).recvFailed = false := hl
            apply handle_returns
            · simpa [returnView, recvFails] using hl
            · intro hkill
              simp [returnView, commandOf, hkill]
        | _ => cases hh
      · have hh : l.handling = false := by simpa using hh
        have hcmd : commandOf (.main (.jump l)) = none := by
          cases l with
          | handle conn args => cases hh
          | _ => rfl
        have hsame : returnView (tr ++ [.main (.jump l)]) = returnView tr := by
          simp [returnView, recvFails, listenFails, hcmd]
        rw [hsame]
        exact block_returns hh hl
    · intro c r he _
      subst he
      exact returnView_did
    · intro he
      exact returnView_frame he
  · intro hx' j k' hk'
    rcases locker_cases h hk' with ⟨hk, hne⟩ | ⟨a, k, rfl, hk, -, hf⟩ | ⟨hj, ⟨i, rfl, rfl⟩⟩
    · rw [tallyOf_frame hne]
      exact hinv.lockers hx j k' hk
    · have hok := hinv.lockers hx j k hk
      cases a with
      | jump l =>
          have hsame : tallyOf j (tr ++ [.locker j (.jump l)]) = tallyOf j tr := by
            simp [tallyOf, refusedKeyboard, refusedPointer, refusedDisplay]
          rw [hsame]
          exact hok.jump tally_verified hf
      | did c r =>
          -- the process is alive after the step, so it was no `exit`
          have hc : c ≠ .exit := by
            rintro rfl
            obtain ⟨k₀, t, sh, -, -, -, rfl⟩ := step_locker h
            cases hx'
          exact hok.did hf (tallyOf_did hc)
    · rw [tallyOf_frame (by simp), hinv.fresh j (Nat.le_of_eq hj.symm)]
      exact tally_verified .entry _ rfl
  · intro j hj
    have hlen : s.lockers.length ≤ j := Nat.le_trans (lockers_length_le h) hj
    rw [tallyOf_frame, hinv.fresh j hlen]
    rintro a rfl
    obtain ⟨k, t, sh, hk, -, -, -⟩ := step_locker h
    have hlt := (List.getElem?_eq_some_iff.mp hk).1
    omega
  · intro hx'
    cases e with
    | locker j a =>
        obtain ⟨k, t, sh, hk, hf, -, rfl⟩ := step_locker h
        unfold exits at hx'
        split at hx'
        · exact ⟨j, doomed_mono (((hinv.lockers hx j k hk).pre hf).2 rfl)⟩
        · cases hx'
    | main a => obtain ⟨t, sh, -, -, rfl⟩ := step_main h; rw [hx] at hx'; cases hx'
    | sender i a => obtain ⟨d, t, sh, -, -, -, rfl⟩ := step_sender h; rw [hx] at hx'; cases hx'
    | listener i a => obtain ⟨d, t, sh, -, -, -, rfl⟩ := step_listener h; rw [hx] at hx'; cases hx'

theorem survivalInv_run {cfg : Config} {conn args : Bytes} (h : Run Step (init cfg conn args) tr s) :
    SurvivalInv tr s :=
  h.history (survivalInv_init cfg conn args) fun _ _ _ _ => survivalInv_step

/-- With the X server as assumed, no lock thread is refused the display. -/
theorem display_run {cfg : Config} {conn args : Bytes} (h : Run (Restrict XServer Step) (init cfg conn args) tr s)
    (j : Nat) : tr.any (refusedDisplay j) = false := by
  refine Run.history (I := fun tr _ => tr.any (refusedDisplay j) = false) h rfl ?_
  intro tr a e b hbefore hs
  rw [List.any_append, hbefore]
  have hx := hs.1
  cases e with
  | locker i a =>
      cases a with
      | jump l => rfl
      | did c r =>
          cases c with
          | openDisplay =>
              obtain rfl : r = true := hx
              simp [refusedDisplay]
          | _ => rfl
  | _ => rfl

/-! ## A doomed lock thread -/

/-- **A doomed lock thread goes on to `exit`**, by steps of its own. -/
theorem doomed_exits {j : Nat} {g : LockTally} (hg : g.Doomed) (p : Prog lockI LockLoc) {s : Daemon} {k : LockThread}
    (hx : s.exited = false) (hk : s.lockers[j]? = some k) (hp : k.thread.rest = p)
    (hok : k.thread.Ok tallyContract Undoomed g) :
    ∃ tr s', Run (Restrict XServer Step) s tr s' ∧ s'.exited = true ∧ ∀ e ∈ tr, ∃ a, e = .locker j a := by
  -- by induction on what is left of `lock`
  induction p generalizing s k with
  | ret l =>
      have hl := hok.of_ret hp
      cases l with
      | entry =>
          obtain rfl : g = ⟨0, false⟩ := hl
          simp [LockTally.Doomed] at hg
      | locked bind => exact absurd hg hl
      | unlocked => exact absurd hg hl
  | call c f ih =>
      obtain ⟨⟨hgives, -⟩, hnext⟩ := hok.of_call hp
      have hlen : j < s.lockers.length := (List.getElem?_eq_some_iff.mp hk).1
      -- the state after the next call, for the two calls that return
      have hgo : ∀ {s' : Daemon} {e : Event} (k' : LockThread), Step s e s' → XServer s e → (∃ a, e = .locker j a) →
          s'.exited = false → s'.lockers[j]? = some k' → k'.thread.Ok tallyContract Undoomed g →
          (∃ r, k'.thread.rest = f r) →
          ∃ tr s', Run (Restrict XServer Step) s tr s' ∧ s'.exited = true ∧ ∀ e ∈ tr, ∃ a, e = .locker j a := by
        rintro s' e k' hstep hserver hmine hx' hk' hok' ⟨r, hr⟩
        obtain ⟨tr, s'', hrun, hexit, hall⟩ := ih r hx' hk' hr hok'
        refine ⟨e :: tr, s'', hrun.cons ⟨hserver, hstep⟩, hexit, ?_⟩
        intro e' he'
        rcases List.mem_cons.mp he' with rfl | he'
        · exact hmine
        · exact hall e' he'
      cases c with
      | exit =>
          have hstep : Restrict XServer Step s (.locker j (.did .exit ())) _ :=
            ⟨trivial, can_locker_call hx hk hp rfl⟩
          exact ⟨_, _, Run.single hstep, rfl, by simp⟩
      | select =>
          have hstep : Step s (.locker j (.did .select ())) _ := can_locker_call hx hk hp rfl
          exact hgo _ hstep trivial ⟨_, rfl⟩ rfl (List.getElem?_set_self hlen) (hnext () g rfl) ⟨(), rfl⟩
      | ungrabKeyboard =>
          have hstep : Step s (.locker j (.did .ungrabKeyboard ())) _ := can_locker_call hx hk hp rfl
          exact hgo _ hstep trivial ⟨_, rfl⟩ rfl (List.getElem?_set_self hlen) (hnext () g rfl) ⟨(), rfl⟩
      | _ => exact (hgives hg).elim

/-! ## The law of the end -/

theorem Calm.undoomed (h : Calm tr) (hdisplay : ∀ j, tr.any (refusedDisplay j) = false) (j : Nat) :
    ¬ (tallyOf j tr).Doomed := by
  rintro (hrefused | hdenied)
  · exact Nat.not_lt.mpr hrefused (h.keyboard j)
  · simp only [tallyOf, List.any_eq_true, Bool.or_eq_true] at hdenied
    obtain ⟨e, he, hdisp | hpointer⟩ := hdenied
    · exact Bool.false_ne_true ((hdisplay j).symm.trans (List.any_eq_true.mpr ⟨e, he, hdisp⟩))
    · exact Bool.false_ne_true ((h.pointer j).symm.trans (List.any_eq_true.mpr ⟨e, he, hpointer⟩))

/-- Steps of a lock thread serve no KILL and fail no `accept`. -/
theorem excused_locker {j : Nat} {tr' : List Event} (hmine : ∀ e ∈ tr', ∃ a, e = .locker j a) :
    Excused (tr ++ tr') ↔ Excused tr := by
  have hcommands : commandsOf tr' = [] := by
    apply List.filterMap_eq_nil_iff.mpr
    intro e he
    obtain ⟨a, rfl⟩ := hmine e he
    rfl
  have hlisten : tr'.any listenFails = false := by
    apply List.any_eq_false.mpr
    intro e he
    obtain ⟨a, rfl⟩ := hmine e he
    simp [listenFails]
  have happend : commandsOf (tr ++ tr') = commandsOf tr ++ commandsOf tr' := List.filterMap_append
  simp [Excused, happend, hcommands, hlisten]

/-- After a failed `recv` the main thread returns. -/
theorem SurvivalInv.returns (hinv : SurvivalInv tr s) (h : tr.any recvFails = true) : Ended s := by
  have hfailed : (returnView tr).recvFailed = true := h
  cases hr : s.main.rest with
  | ret l =>
      have hl := hinv.main.of_ret hr
      cases l with
      | returned code => exact Or.inr ⟨code, hr⟩
      | _ =>
          have hl : (returnView tr).recvFailed = false := hl
          rw [hfailed] at hl
          cases hl
  | call c k =>
      have hpre : (returnView tr).recvFailed = false := (hinv.main.of_call hr).1
      rw [hfailed] at hpre
      cases hpre

/-- A doomed lock thread can end the process, if nothing else has. -/
theorem SurvivalInv.exits (hinv : SurvivalInv tr s) {j : Nat} (hdoomed : (tallyOf j tr).Doomed) :
    ∃ tr' s', Run (Restrict XServer Step) s tr' s' ∧ Ended s' ∧ (Excused (tr ++ tr') ↔ Excused tr) := by
  cases hx : s.exited with
  | true => exact ⟨[], s, Run.nil, Or.inl hx, by rw [List.append_nil]⟩
  | false =>
      have hlen : j < s.lockers.length := by
        by_contra hlen
        rw [hinv.fresh j (Nat.not_lt.mp hlen)] at hdoomed
        simp [LockTally.Doomed] at hdoomed
      have hk := List.getElem?_eq_getElem hlen
      obtain ⟨tr', s', hrun, hexit, hmine⟩ := doomed_exits hdoomed _ hx hk rfl (hinv.lockers hx j _ hk)
      exact ⟨tr', s', hrun, Or.inl hexit, excused_locker hmine⟩

/-- A KILL is served. -/
def killEvents : List Event := boot ++ killOrder

/-- A lock thread tries in vain to get the keyboard, and exits. -/
def giveUpEvents (j : Nat) : List Event :=
  .locker j (.did .openDisplay true) ::
    (List.replicate 100 [Event.locker j (.did .grabKeyboard false), .locker j (.did .select ())]).flatten ++
    [.locker j (.did .exit ())]

/-- START, the lock is acquired, STOP, the sender leaves; START again, with the lock still held. -/
def restartEvents : List Event :=
  lockedOutEvents ++ order .start startEvents ++ joinEvents 1 ++ giveUpEvents 1

/-- A client connects and resets its connection. -/
def resetEvents : List Event := boot ++ [mainCall .accept (4 : Int), mainCall (.recvConn 4) .error]

end Daemon

end IOSwitch
