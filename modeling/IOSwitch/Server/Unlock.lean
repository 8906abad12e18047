import IOSwitch.Server.HostLock
import IOSwitch.Lib.Feed

/-!
# `Server.Unlock` — the loop of `spawn_lock_thread` as a matcher of key presses

The loop reads X events until the keys of the bind have been pressed in order. Fed with a list of events it has one
outcome (`watch`), and that depends on the keys alone (`typeKeys`, `watch_eq`). Whenever the display is still locked
the last `idx` presses were the first `idx` keys (`Matched`), so it is unlocked only by the whole bind.

A wrong key takes `idx` back to 0 and is not looked at again, also when it is the first key. So the display is unlocked
exactly when the bind comes right behind attempts that have each been ended by a wrong key (`Attempts`,
`typeKeys_none_iff`): pressing it twice always helps (`unlock_sound`), pressing it once does not
(`unlock_complete_iff`, `unlock_ignored`).
-/

namespace IOSwitch

open Lib HostLock

/-! ## The loop, fed with events -/

/-- The X server: the events it has still to deliver, and the calls it has answered. -/
structure XQueue where
  events : List XEvent
  calls  : List LockCall

/-- Events are delivered in order, and `XNextEvent` waits when there are none. Everything else succeeds. -/
def xserver : Env lockI XQueue
  | .openDisplay, q    => some (true, { q with calls := q.calls ++ [.openDisplay] })
  | .grabKeyboard, q   => some (true, { q with calls := q.calls ++ [.grabKeyboard] })
  | .select, q         => some ((), { q with calls := q.calls ++ [.select] })
  | .grabPointer, q    => some (true, { q with calls := q.calls ++ [.grabPointer] })
  | .ungrabKeyboard, q => some ((), { q with calls := q.calls ++ [.ungrabKeyboard] })
  | .closeDisplay, q   => some ((), { q with calls := q.calls ++ [.closeDisplay] })
  | .nextEvent, q      =>
      match q.events with
      | []           => none
      | ev :: events => some (ev, ⟨events, q.calls ++ [.nextEvent]⟩)
  | .bell, q           => some ((), { q with calls := q.calls ++ [.bell] })
  | .exit, q           => some ((), { q with calls := q.calls ++ [.exit] })

/-- The loop of `spawn_lock_thread` with this bind, fed with these events: where it gets to. Every round reads an
    event, so that one block more than there are events is enough. -/
def watch (bind : KeyBind) (evs : List XEvent) : LockLoc × XQueue :=
  Thread.runIn xserver spawnLockThread (evs.length + 1) (.locked bind) ⟨evs, []⟩

/-- The loop that is fed is the loop of the thread. -/
theorem watch_run (bind : KeyBind) (evs : List XEvent) :
    ∃ tr, Run (Thread.Alone spawnLockThread) (Thread.start spawnLockThread (.locked bind)) tr
      (Thread.start spawnLockThread (watch bind evs).1) :=
  Thread.run_runIn _ _ _

/-- The key of a key press. -/
def XEvent.key : XEvent → Option Nat
  | keyPress _ ks => some ks
  | other         => none

/-- The keys that are pressed. -/
def presses (evs : List XEvent) : List Nat := evs.filterMap XEvent.key

theorem presses_append (a b : List XEvent) : presses (a ++ b) = presses a ++ presses b := List.filterMap_append

/-! ## One round -/

section Round

variable (bind : KeyBind) (evs : List XEvent) (calls : List LockCall)

theorem block_other :
    (spawnLockThread (.locked bind)).runIn xserver ⟨.other :: evs, calls⟩ =
      some (.locked bind, ⟨evs, calls ++ [.nextEvent]⟩) := rfl

/-- A key that does not end the bind. -/
theorem block_press (time ks : Nat) (h : (press bind ks).idx ≠ (press bind ks).len) :
    (spawnLockThread (.locked bind)).runIn xserver ⟨.keyPress time ks :: evs, calls⟩ =
      some (.locked (press bind ks), ⟨evs, calls ++ [.nextEvent]⟩) := by
  simp [spawnLockThread, tryUnlock, release, Prog.runIn, xserver, h]

/-- The key that ends it. -/
theorem block_unlock (time ks : Nat) (h : (press bind ks).idx = (press bind ks).len) :
    (spawnLockThread (.locked bind)).runIn xserver ⟨.keyPress time ks :: evs, calls⟩ =
      some (.unlocked, ⟨evs, calls ++ [.nextEvent] ++ [.ungrabKeyboard] ++ [.closeDisplay]⟩) := by
  simp [spawnLockThread, tryUnlock, release, Prog.runIn, xserver, h]

end Round

/-! ## Keys -/

/-- The keys that unlock. -/
def KeyBind.wanted (bind : KeyBind) : List Nat := (List.range bind.len).map fun i => bind.keys.getD i 0

theorem KeyBind.wanted_length (bind : KeyBind) : bind.wanted.length = bind.len := by
  rw [KeyBind.wanted, List.length_map, List.length_range]

/-- The bind after these keys; `none` once they have unlocked. -/
def typeKeys (bind : KeyBind) : List Nat → Option KeyBind
  | []       => some bind
  | ks :: kss => if (press bind ks).idx = (press bind ks).len then none else typeKeys (press bind ks) kss

theorem typeKeys_append (bind : KeyBind) (a b : List Nat) :
    typeKeys bind (a ++ b) = (typeKeys bind a).bind fun bind' => typeKeys bind' b := by
  induction a generalizing bind with
  | nil => rfl
  | cons ks a ih =>
      rw [List.cons_append, typeKeys, typeKeys]
      split
      · rfl
      · exact ih _

/-- A lock thread that has unlocked does nothing more. -/
theorem runIn_unlocked (n : Nat) (q : XQueue) : Thread.runIn xserver spawnLockThread n .unlocked q = (.unlocked, q) :=
  Thread.runIn_end rfl

/-- The keys that an event brings. -/
theorem presses_cons (ev : XEvent) (evs : List XEvent) : presses (ev :: evs) = ev.key.toList ++ presses evs := by
  cases ev <;> rfl

/-- What becomes of the loop when it is fed with events, behind the calls it has made before. -/
inductive Watched (bind : KeyBind) (evs : List XEvent) (calls : List LockCall) (w : LockLoc × XQueue) : Prop where
  /-- All events are read, and the keys have led to the bind `bind'`. -/
  | locked (bind' : KeyBind) (keys : typeKeys bind (presses evs) = some bind')
      (result : w = (.locked bind', ⟨[], calls ++ List.replicate evs.length .nextEvent⟩))
  /-- A key press unlocks, and no event is read behind it. -/
  | unlocked (before : List XEvent) (time ks : Nat) (after : List XEvent) (bind' : KeyBind)
      (events : evs = before ++ .keyPress time ks :: after) (keys : typeKeys bind (presses before) = some bind')
      (last : typeKeys bind' [ks] = none)
      (result : w = (.unlocked, ⟨after, calls ++ List.replicate (before.length + 1) .nextEvent ++
        [.ungrabKeyboard, .closeDisplay]⟩))

/-- A round that does not unlock, before the others. -/
theorem Watched.cons {bind bind₁ : KeyBind} {ev : XEvent} {evs : List XEvent} {calls : List LockCall}
    {w : LockLoc × XQueue} (hkeys : ∀ kss, typeKeys bind (ev.key.toList ++ kss) = typeKeys bind₁ kss)
    (h : Watched bind₁ evs (calls ++ [.nextEvent]) w) : Watched bind (ev :: evs) calls w := by
  have hcalls : ∀ n, calls ++ [LockCall.nextEvent] ++ List.replicate n .nextEvent =
      calls ++ List.replicate (n + 1) .nextEvent := by
    intro n
    rw [List.append_assoc, List.replicate_succ, List.singleton_append]
  cases h with
  | locked bind' keys result =>
      refine .locked bind' ?_ ?_
      · rw [presses_cons, hkeys, keys]
      · rw [result, hcalls, List.length_cons]
  | unlocked before time ks after bind' events keys last result =>
      refine .unlocked (ev :: before) time ks after bind' ?_ ?_ last ?_
      · rw [events, List.cons_append]
      · rw [presses_cons, hkeys, keys]
      · rw [result, hcalls, List.length_cons]

/-- **The loop** ends in one of these two ways. -/
theorem watched (bind : KeyBind) (evs : List XEvent) (calls : List LockCall) :
    Watched bind evs calls (Thread.runIn xserver spawnLockThread (evs.length + 1) (.locked bind) ⟨evs, calls⟩) := by
  induction evs generalizing bind calls with
  | nil =>
      refine .locked bind rfl ?_
      rw [List.length_nil, List.replicate_zero, List.append_nil]
      exact Thread.runIn_wait rfl
  | cons ev evs ih =>
      rw [List.length_cons]
      cases ev with
      | other =>
          rw [Thread.runIn_step (block_other bind evs calls)]
          exact (ih bind _).cons fun _ => rfl
      | keyPress time ks =>
          by_cases hend : (press bind ks).idx = (press bind ks).len
          · rw [Thread.runIn_step (block_unlock bind evs calls time ks hend), runIn_unlocked]
            exact .unlocked [] time ks evs bind rfl rfl (if_pos hend) (by simp)
          · rw [Thread.runIn_step (block_press bind evs calls time ks hend)]
            exact (ih (press bind ks) _).cons fun _ => if_neg hend

/-- Only the keys decide. -/
theorem watch_eq (bind : KeyBind) (evs : List XEvent) :
    (watch bind evs).1 = match typeKeys bind (presses evs) with
      | some bind' => .locked bind'
      | none       => .unlocked := by
  cases watched bind evs [] with
  | locked bind' keys result => rw [watch, result, keys]
  | unlocked before time ks after bind' events keys last result =>
      have hnone : typeKeys bind (presses evs) = none := by
        rw [events, presses_append, typeKeys_append, keys]
        show typeKeys bind' ([ks] ++ presses after) = none
        rw [typeKeys_append, last]
        rfl
      rw [watch, result, hnone]

theorem watch_unlocked {bind : KeyBind} {evs : List XEvent} :
    (watch bind evs).1 = .unlocked ↔ typeKeys bind (presses evs) = none := by
  rw [watch_eq]
  cases typeKeys bind (presses evs) <;> simp

/-! ## Soundness -/

/-- Key presses of the bind `bind` have led to `bind'`: the last `idx` of them are its first `idx` keys. -/
structure Matched (bind bind' : KeyBind) (typed : List Nat) : Prop where
  keys : bind'.keys = bind.keys
  len  : bind'.len = bind.len
  idx  : bind'.idx < bind.len
  seen : bind.wanted.take bind'.idx <:+ typed

/-- The keys that are wanted, up to one of them. -/
theorem KeyBind.take_wanted {bind : KeyBind} {i : Nat} (h : i < bind.len) :
    bind.wanted.take (i + 1) = bind.wanted.take i ++ [bind.keys.getD i 0] := by
  rw [List.take_add_one, KeyBind.wanted, List.getElem?_map, List.getElem?_range h]
  rfl

/-- **One key.** -/
theorem Matched.press {bind bind' : KeyBind} {typed : List Nat} (h : Matched bind bind' typed) (ks : Nat) :
    ((press bind' ks).idx ≠ (press bind' ks).len → Matched bind (press bind' ks) (typed ++ [ks])) ∧
    ((press bind' ks).idx = (press bind' ks).len → bind.wanted <:+ typed ++ [ks]) := by
  obtain ⟨hkeys, hlen, hidx, hseen⟩ := h
  have hpos : 0 < bind.len := Nat.lt_of_le_of_lt (Nat.zero_le _) hidx
  unfold HostLock.press
  split
  · next hks =>
    -- the right key: the match is one longer
    have hseen' : bind.wanted.take (bind'.idx + 1) <:+ typed ++ [ks] := by
      rw [KeyBind.take_wanted hidx, ← hks, hkeys]
      obtain ⟨rest, hrest⟩ := hseen
      exact ⟨rest, by rw [← hrest, List.append_assoc]⟩
    refine ⟨fun hne => ⟨hkeys, hlen, ?_, hseen'⟩, fun heq => ?_⟩
    · have hne' : bind'.idx + 1 ≠ bind.len := by rw [← hlen]; exact hne
      show bind'.idx + 1 < bind.len
      omega
    · have heq' : bind'.idx + 1 = bind.len := by rw [← hlen]; exact heq
      rwa [heq', ← bind.wanted_length, List.take_length] at hseen'
  · -- a wrong key: nothing is matched any more
    refine ⟨fun _ => ⟨hkeys, hlen, hpos, ?_⟩, fun heq => ?_⟩
    · rw [List.take_zero]
      exact List.nil_suffix
    · have heq' : 0 = bind.len := by rw [← hlen]; exact heq
      omega

/-- **All keys.** -/
theorem Matched.type {bind bind' bind'' : KeyBind} {typed kss : List Nat} (h : Matched bind bind' typed)
    (hkeys : typeKeys bind' kss = some bind'') : Matched bind bind'' (typed ++ kss) := by
  induction kss generalizing bind' typed with
  | nil =>
      cases hkeys
      rwa [List.append_nil]
  | cons ks kss ih =>
      rw [typeKeys] at hkeys
      split at hkeys
      · cases hkeys
      · next hne =>
        have hrest : Matched bind bind'' (typed ++ [ks] ++ kss) := ih ((h.press ks).1 hne) hkeys
        rwa [List.append_assoc] at hrest

/-- At the beginning nothing is matched. -/
theorem Matched.init {bind : KeyBind} (hlen : 1 ≤ bind.len) (hidx : bind.idx = 0) : Matched bind bind [] :=
  ⟨rfl, rfl, by omega, by rw [hidx]; exact List.nil_suffix⟩

/-! ## The bind, pressed twice -/

/-- The first key is not wanted a second time. -/
def KeyBind.FirstOnce (bind : KeyBind) : Prop := bind.keys.getD 0 0 ∉ bind.wanted.tail

instance (bind : KeyBind) : Decidable bind.FirstOnce := inferInstanceAs (Decidable (_ ∉ _))

/-- The keys that are still missing unlock. -/
theorem typeKeys_missing {bind bind' : KeyBind} {typed : List Nat} (h : Matched bind bind' typed) :
    typeKeys bind' (bind.wanted.drop bind'.idx) = none := by
  induction hn : bind.len - bind'.idx generalizing bind' typed with
  | zero =>
      have hidx := h.idx
      omega
  | succ n ih =>
      have hidx := h.idx
      have hlt : bind'.idx < bind.wanted.length := by rwa [bind.wanted_length]
      have hnext : bind.wanted[bind'.idx] = bind'.keys.getD bind'.idx 0 := by
        simp [KeyBind.wanted, h.keys]
      have hpress : press bind' (bind'.keys.getD bind'.idx 0) = { bind' with idx := bind'.idx + 1 } := if_pos rfl
      rw [List.drop_eq_getElem_cons hlt, hnext, typeKeys]
      split
      · rfl
      · next hne =>
        have hrest := ih ((h.press _).1 hne)
        rw [hpress] at hrest ⊢
        exact hrest (by show bind.len - (bind'.idx + 1) = n; omega)

/-- Where nothing is matched, keys other than the first change nothing. -/
theorem typeKeys_others {bind : KeyBind} {kss : List Nat} (hidx : bind.idx = 0) (hlen : 0 < bind.len)
    (h : bind.keys.getD 0 0 ∉ kss) : typeKeys bind kss = some bind := by
  induction kss with
  | nil => rfl
  | cons ks kss ih =>
      obtain ⟨hks, hrest⟩ := not_or.mp (mt List.mem_cons.mpr h)
      have hpress : press bind ks = bind := by
        unfold press
        rw [hidx, if_neg hks, ← hidx]
      rw [typeKeys, hpress, if_neg (by omega), ih hrest]

/-- The first key, before the others. -/
theorem KeyBind.wanted_cons {bind : KeyBind} (hlen : 0 < bind.len) :
    bind.wanted = bind.keys.getD 0 0 :: bind.wanted.tail := by
  obtain ⟨n, hn⟩ : ∃ n, bind.len = n + 1 := ⟨bind.len - 1, by omega⟩
  rw [KeyBind.wanted, hn, List.range_succ_eq_map]
  rfl

/-- **Pressed twice**, the bind unlocks from wherever a match has got to. -/
theorem typeKeys_twice {bind bind' : KeyBind} {typed : List Nat} (hfirst : bind.FirstOnce)
    (h : Matched bind bind' typed) : typeKeys bind' (bind.wanted ++ bind.wanted) = none := by
  rw [typeKeys_append]
  by_cases hidx : bind'.idx = 0
  · have hall := typeKeys_missing h
    rw [hidx, List.drop_zero] at hall
    rw [hall]
    rfl
  · -- its first key is wrong here, and then the others are wrong as well
    have hlen : 0 < bind.len := Nat.lt_of_le_of_lt (Nat.zero_le _) h.idx
    have hwrong : bind'.keys.getD bind'.idx 0 ≠ bind.keys.getD 0 0 := by
      intro heq
      refine hfirst (List.mem_iff_getElem.mpr ⟨bind'.idx - 1, ?_, ?_⟩)
      · have hlt := h.idx
        rw [List.length_tail, bind.wanted_length]
        omega
      · have hback : bind'.idx - 1 + 1 = bind'.idx := by omega
        rw [List.getElem_tail, ← heq, h.keys]
        simp [KeyBind.wanted, hback]
    have hpress : press bind' (bind.keys.getD 0 0) = { bind' with idx := 0 } := if_neg hwrong
    have hlen' : bind'.len ≠ 0 := by rw [h.len]; omega
    have hback : typeKeys bind' bind.wanted = some { bind' with idx := 0 } := by
      rw [KeyBind.wanted_cons hlen, typeKeys, hpress, if_neg hlen'.symm]
      refine typeKeys_others rfl (Nat.pos_of_ne_zero hlen') ?_
      show bind'.keys.getD 0 0 ∉ _
      rwa [h.keys]
    have hagain : Matched bind { bind' with idx := 0 } [] :=
      ⟨h.keys, h.len, hlen, List.nil_suffix⟩
    rw [hback]
    exact typeKeys_missing hagain

/-- Other events than key presses are left out. -/
def XEvent.isPress (ev : XEvent) : Bool := ev.key.isSome

theorem presses_filter (evs : List XEvent) : presses (evs.filter XEvent.isPress) = presses evs := by
  induction evs with
  | nil => rfl
  | cons ev evs ih =>
      cases ev with
      | other => exact ih
      | keyPress time ks => exact congrArg (ks :: ·) ih

/-- **Unlocking is sound and recoverable.** Fed with any events, the loop is in one of two states. Either the display is
    still locked, every event has been read and nothing else asked for, and the next key is looked up inside the bind;
    or it was locked until a key press that completes the bind, and then the keyboard was ungrabbed and the display
    closed, each once, and no event was read any more. Events that are not key presses do not matter. And if the
    first key is not wanted a second time, the bind pressed twice unlocks a locked display. -/
theorem unlock_sound (bind : KeyBind) (hlen : 1 ≤ bind.len ∧ bind.len ≤ 8) (hidx : bind.idx = 0)
    (evs : List XEvent) :
    ((∃ bind', watch bind evs = (.locked bind', ⟨[], List.replicate evs.length .nextEvent⟩) ∧
        bind'.idx < bind.len ∧ bind'.keys = bind.keys ∧ bind'.len = bind.len) ∨
      (∃ before time ks after bind', evs = before ++ .keyPress time ks :: after ∧
        (watch bind before).1 = .locked bind' ∧ bind.wanted <:+ presses before ++ [ks] ∧
        watch bind evs = (.unlocked, ⟨after, List.replicate (before.length + 1) .nextEvent ++
          [.ungrabKeyboard, .closeDisplay]⟩))) ∧
    (watch bind (evs.filter XEvent.isPress)).1 = (watch bind evs).1 ∧
    (bind.FirstOnce → (watch bind evs).1 ≠ .unlocked →
      ∀ evs', presses evs' = bind.wanted ++ bind.wanted → (watch bind (evs ++ evs')).1 = .unlocked) := by
  have hinit : Matched bind bind [] := .init hlen.1 hidx
  refine ⟨?_, ?_, ?_⟩
  · cases watched bind evs [] with
    | locked bind' keys result =>
        have hmatch : Matched bind bind' (presses evs) := hinit.type keys
        exact .inl ⟨bind', result, hmatch.idx, hmatch.keys, hmatch.len⟩
    | unlocked before time ks after bind' events keys last result =>
        have hmatch : Matched bind bind' (presses before) := hinit.type keys
        refine .inr ⟨before, time, ks, after, bind', events, ?_, ?_, result⟩
        · rw [watch_eq, keys]
        · refine (hmatch.press ks).2 ?_
          by_contra hne
          rw [typeKeys, if_neg hne] at last
          cases last
  · rw [watch_eq, watch_eq, presses_filter]
  · intro hfirst hlocked evs' hevs'
    cases hkeys : typeKeys bind (presses evs) with
    | none => exact absurd (watch_unlocked.mpr hkeys) hlocked
    | some bind' =>
        have hmatch : Matched bind bind' (presses evs) := hinit.type hkeys
        rw [watch_unlocked, presses_append, typeKeys_append, hkeys, hevs']
        exact typeKeys_twice hfirst hmatch

/-- The bind of the program, of which the first key has been pressed. -/
theorem unlock_sound_super :
    (watch unlockBind ([.keyPress 0 0xffeb] ++ (unlockBind.wanted ++ unlockBind.wanted).map (.keyPress 0))).1 =
      .unlocked :=
  (unlock_sound unlockBind ⟨by decide, by decide⟩ rfl [.keyPress 0 0xffeb]).2.2 (by decide) (by decide) _ (by decide)

/-! ## The bind, pressed once -/

/-- Attempts that have failed: some first keys of the bind, and then a wrong key. -/
inductive Attempts (bind : KeyBind) : List Nat → Prop where
  | nil : Attempts bind []
  | wrong {kss : List Nat} (i ks : Nat) (idx : i < bind.len) (ne : ks ≠ bind.keys.getD i 0) :
      Attempts bind kss → Attempts bind (bind.wanted.take i ++ ks :: kss)

/-- The bind with `i` keys matched. -/
def KeyBind.upTo (bind : KeyBind) (i : Nat) : KeyBind := { bind with idx := i }

section UpTo

variable {bind : KeyBind} {i ks : Nat} {kss : List Nat}

theorem press_right : press (bind.upTo i) (bind.keys.getD i 0) = bind.upTo (i + 1) := if_pos rfl

theorem press_wrong (h : ks ≠ bind.keys.getD i 0) : press (bind.upTo i) ks = bind.upTo 0 := if_neg h.symm

/-- The first keys, as long as they do not unlock. -/
theorem typeKeys_take (hi : i < bind.len) : typeKeys (bind.upTo 0) (bind.wanted.take i) = some (bind.upTo i) := by
  induction i with
  | zero => rfl
  | succ i ih =>
      have hne : ¬ (bind.upTo (i + 1)).idx = (bind.upTo (i + 1)).len := by
        show ¬ i + 1 = bind.len
        omega
      rw [KeyBind.take_wanted (by omega), typeKeys_append, ih (by omega)]
      show typeKeys (bind.upTo i) [bind.keys.getD i 0] = _
      rw [typeKeys, press_right, if_neg hne]
      rfl

/-- Behind failed attempts nothing is matched. -/
theorem Attempts.typeKeys (h : Attempts bind kss) : IOSwitch.typeKeys (bind.upTo 0) kss = some (bind.upTo 0) := by
  induction h with
  | nil => rfl
  | wrong i ks idx ne _ ih =>
      have hne : ¬ (bind.upTo 0).idx = (bind.upTo 0).len := by
        show ¬ 0 = bind.len
        omega
      rw [typeKeys_append, typeKeys_take idx]
      show IOSwitch.typeKeys (bind.upTo i) (ks :: _) = _
      rw [IOSwitch.typeKeys, press_wrong ne, if_neg hne, ih]

/-- Keys that unlock consist of failed attempts, the bind and what is behind it. Here `i` keys are matched. -/
theorem attempts_of_none (hi : i < bind.len) (h : typeKeys (bind.upTo i) kss = none) :
    ∃ tried, Attempts bind tried ∧ tried ++ bind.wanted <+: bind.wanted.take i ++ kss := by
  induction kss generalizing i with
  | nil => cases h
  | cons ks kss ih =>
      by_cases hks : ks = bind.keys.getD i 0
      · have htake : bind.wanted.take i ++ ks :: kss = bind.wanted.take (i + 1) ++ kss := by
          rw [KeyBind.take_wanted hi, hks, List.append_assoc, List.singleton_append]
        rw [htake]
        rw [typeKeys, hks, press_right] at h
        split at h
        · next hend =>
          have hlen : i + 1 = bind.len := hend
          refine ⟨[], .nil, kss, ?_⟩
          rw [hlen, ← bind.wanted_length, List.take_length, List.nil_append]
        · next hne =>
          have hne' : i + 1 ≠ bind.len := hne
          exact ih (by omega) h
      · rw [typeKeys, press_wrong hks, if_neg (by show ¬ 0 = bind.len; omega)] at h
        obtain ⟨tried, htried, hpre⟩ := ih (Nat.zero_lt_of_lt hi) h
        refine ⟨bind.wanted.take i ++ ks :: tried, .wrong i ks hi hks htried, ?_⟩
        rw [List.append_assoc, List.cons_append]
        exact List.prefix_append_right_inj _ |>.mpr (List.cons_prefix_cons.mpr ⟨rfl, hpre⟩)

/-- **Keys unlock** iff the bind comes right behind failed attempts. -/
theorem typeKeys_none_iff (hlen : 0 < bind.len) :
    typeKeys (bind.upTo 0) kss = none ↔ ∃ tried, Attempts bind tried ∧ tried ++ bind.wanted <+: kss := by
  constructor
  · intro h
    exact attempts_of_none hlen h
  · rintro ⟨tried, htried, rest, rfl⟩
    have hmatch : Matched bind (bind.upTo 0) [] := ⟨rfl, rfl, hlen, List.nil_suffix⟩
    have hall : typeKeys (bind.upTo 0) bind.wanted = none := typeKeys_missing hmatch
    rw [List.append_assoc, typeKeys_append, htried.typeKeys]
    show typeKeys (bind.upTo 0) (bind.wanted ++ rest) = none
    rw [typeKeys_append, hall]
    rfl

/-- Two copies of a bind whose first key is not wanted again do not overlap. -/
theorem wanted_apart {tried pre : List Nat} (hlen : 0 < bind.len) (hfirst : bind.FirstOnce)
    (h : tried ++ bind.wanted <+: pre ++ bind.wanted) : tried = pre ∨ tried ++ bind.wanted <+: pre := by
  have hle := h.length_le
  rw [List.length_append, List.length_append] at hle
  rcases Nat.lt_or_ge tried.length pre.length with hlt | hge
  · rcases Nat.lt_or_ge pre.length (tried.length + bind.len) with hover | hclear
    · -- the first key of the last copy would be a later one of the first copy
      exfalso
      rw [KeyBind.wanted_cons hlen] at h
      obtain ⟨rest, hrest⟩ := h
      have hget := congrArg (·[pre.length]?) hrest
      have hpos : pre.length - tried.length = (pre.length - tried.length - 1) + 1 := by omega
      have hin : pre.length - tried.length - 1 < bind.wanted.tail.length := by
        rw [List.length_tail, bind.wanted_length]
        omega
      rw [List.append_assoc] at hget
      simp only [List.getElem?_append_right hlt.le, List.getElem?_append_right (Nat.le_refl pre.length),
        Nat.sub_self, List.cons_append, List.getElem?_cons_zero] at hget
      rw [hpos, List.getElem?_cons_succ, List.getElem?_append_left hin] at hget
      exact hfirst (List.mem_of_getElem? hget)
    · refine .inr (List.prefix_of_prefix_length_le h (List.prefix_append _ _) ?_)
      rw [List.length_append, bind.wanted_length]
      exact hclear
  · refine .inl ((List.prefix_of_prefix_length_le ((List.prefix_append _ _).trans h) (List.prefix_append _ _)
      (by omega)).eq_of_length (by omega))

end UpTo

/-- **When typing the bind unlocks.** Let the last three key presses be the bind of the program. The display is then
    unlocked iff the presses before consist of failed attempts, or they have unlocked it already. -/
theorem unlock_complete_iff (evs : List XEvent) (pre : List Nat) (hlast : presses evs = pre ++ unlockBind.wanted) :
    (watch unlockBind evs).1 = .unlocked ↔
      Attempts unlockBind pre ∨ ∃ tried, Attempts unlockBind tried ∧ tried ++ unlockBind.wanted <+: pre := by
  have hlen : 0 < unlockBind.len := by decide
  rw [watch_unlocked, hlast]
  refine (@typeKeys_none_iff unlockBind _ hlen).trans ⟨?_, ?_⟩
  · rintro ⟨tried, htried, hpre⟩
    rcases wanted_apart hlen (by decide) hpre with rfl | hpre
    · exact .inl htried
    · exact .inr ⟨tried, htried, hpre⟩
  · rintro (hpre | ⟨tried, htried, hpre⟩)
    · exact ⟨pre, hpre, List.prefix_refl _⟩
    · exact ⟨tried, htried, hpre.trans (List.prefix_append _ _)⟩

/-- The bind is typed behind a wrong key. -/
theorem unlock_complete_iff_wrong :
    (watch unlockBind ((97 :: unlockBind.wanted).map (.keyPress 0))).1 = .unlocked ↔
      Attempts unlockBind [97] ∨ ∃ tried, Attempts unlockBind tried ∧ tried ++ unlockBind.wanted <+: [97] :=
  unlock_complete_iff _ [97] (by decide)

/-- With the first key pressed once before, the bind is ignored. -/
theorem unlock_ignored :
    ¬ ∀ evs pre, presses evs = pre ++ unlockBind.wanted → (watch unlockBind evs).1 = .unlocked := by
  intro h
  have hunlocked := h ((0xffeb :: unlockBind.wanted).map (.keyPress 0)) [0xffeb] (by decide)
  revert hunlocked
  decide

end IOSwitch
