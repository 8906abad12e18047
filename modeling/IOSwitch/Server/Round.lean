import IOSwitch.Lib.Feed
import IOSwitch.Lib.Lists
import IOSwitch.Server.Sender

/-!
# `Server.Round` — one call of `send_input_event`

A round polls `k` descriptors and forwards one event of each that is ready. All packets are filled in the same
variable, which is zeroed once, at the beginning of the round, and a `read` is only asked whether it has failed. So
what a short read leaves of the event is that of the last descriptor before it, and the packet is sent all the same.

`Answers` are the results of all calls of a round, one for each descriptor, and `round` runs the code on them.
`round_iff` says for which results the packets are those of the events that were read.
-/

namespace IOSwitch

open Lib Sender

/-! ## The results of a round -/

/-- What the calls of a round return: `poll`, and for each descriptor `read` and the `send` behind it. -/
structure Answers where
  poll : PollResult
  read : Nat → ReadResult 24
  send : Nat → Int

/-- The descriptor that was read last, and the packets that were handed to `send` with what it returned. -/
structure RoundState where
  reading : Nat
  sent    : List (InputPacket × Int)

/-- The surroundings of a round that give these answers. -/
def Answers.env (a : Answers) : Env senderI RoundState
  | .poll _, s        => some (a.poll, s)
  | .read i _, s      => some (a.read i, { s with reading := i })
  | .send _ packet, s => some (a.send s.reading, { s with sent := s.sent ++ [(packet, a.send s.reading)] })
  | _, _              => none

/-- `send_input_event` on these answers. -/
def round (a : Answers) (k : Nat) (devfd : List Int) (dest : Int) : Option (Int × RoundState) :=
  (sendInputEvent k devfd dest).runIn a.env ⟨0, []⟩

/-! ## What a round should send -/

/-- An event that was read whole. -/
def whole : ReadResult 24 → Option InputEvent
  | .error    => none
  | .data d _ => if h : d.length = 24 then some ⟨d, h⟩ else none

/-- The read has neither failed nor delivered a whole event. -/
def short (r : ReadResult 24) : Bool := decide (0 ≤ r.ret) && (whole r).isNone

namespace Answers

/-- The descriptor is ready. -/
def ready (a : Answers) (i : Nat) : Bool := decide (0 ≤ a.poll.ret) && a.poll.revents.getD i false

/-- Its read fails, or the send behind it. -/
def fails (a : Answers) (i : Nat) : Bool := decide ((a.read i).ret < 0) || decide (a.send i ≤ 0)

/-- The ready descriptors of a list, up to the first failure and with it. -/
def reached (a : Answers) : List Nat → List Nat
  | []      => []
  | i :: is => if a.ready i then (if a.fails i then [i] else i :: a.reached is) else a.reached is

/-- The packets of the events that were read whole, of those whose `send` returns something that counts. -/
def wanted (a : Answers) (counts : Int → Bool) (is : List Nat) : List InputPacket :=
  is.filterMap fun i => if counts (a.send i) then (whole (a.read i)).map (⟨BitVec.ofNat 32 i, ·⟩) else none

/-- The packets that the code hands to `send` for these descriptors, with `packet` as those before them left it. -/
def handed (a : Answers) (packet : InputPacket) : List Nat → List (InputPacket × Int)
  | []      => []
  | i :: is =>
      if (a.read i).ret < 0 then a.handed packet is
      else
        let filled := ⟨BitVec.ofNat 32 i, packet.ie.fill (a.read i).bytes⟩
        (filled, a.send i) :: a.handed filled is

section Reached

variable {a : Answers} {i : Nat} {is : List Nat}

theorem reached_subset : ∀ j ∈ a.reached is, j ∈ is := by
  induction is with
  | nil => exact fun j hj => absurd hj List.not_mem_nil
  | cons j is ih =>
      intro j' hj'
      rw [reached] at hj'
      split at hj'
      · split at hj'
        · rw [List.mem_singleton.mp hj']
          exact List.mem_cons_self
        · rcases List.mem_cons.mp hj' with rfl | hj'
          · exact List.mem_cons_self
          · exact List.mem_cons_of_mem j (ih j' hj')
      · exact List.mem_cons_of_mem j (ih j' hj')

/-- A descriptor is read iff it is ready and nothing has failed before. -/
theorem mem_reached (hsorted : is.Pairwise (· < ·)) :
    i ∈ a.reached is ↔ i ∈ is ∧ a.ready i = true ∧ ∀ j ∈ is, j < i → a.ready j = true → a.fails j = false := by
  induction is with
  | nil => simp [reached]
  | cons j is ih =>
      obtain ⟨hfirst, hsorted⟩ := List.pairwise_cons.mp hsorted
      rw [reached, List.mem_cons, List.forall_mem_cons]
      by_cases hi : i = j
      · -- the head of the list, with none before it
        subst hi
        have hnone : ∀ j ∈ is, j < i → a.ready j = true → a.fails j = false := fun j hj hji =>
          absurd hji (Nat.lt_asymm (hfirst j hj))
        have hnot : i ∉ is := fun h => Nat.lt_irrefl i (hfirst i h)
        by_cases hready : a.ready i = true
        · rw [if_pos hready]
          split
          · simp [hready]
            exact hnone
          · simp [hready]
            exact hnone
        · rw [if_neg hready]
          exact iff_of_false (fun h => hnot (reached_subset i h)) (fun h => hready h.2.1)
      · have hstep : i ∈ is → j < i := hfirst i
        by_cases hready : a.ready j = true
        · rw [if_pos hready]
          split
          · next hfail =>
            rw [List.mem_singleton]
            refine iff_of_false hi ?_
            rintro ⟨hmem, -, hno, -⟩
            have hin : i ∈ is := hmem.resolve_left hi
            rw [hno (hstep hin) hready] at hfail
            cases hfail
          · next hfail =>
            rw [List.mem_cons, or_iff_right hi, ih hsorted, or_iff_right hi]
            simp [hfail]
        · rw [if_neg hready, ih hsorted, or_iff_right hi]
          simp [hready]

end Reached

end Answers

/-! ## The code on these answers -/

section Code

variable {a : Answers} {devfd : List Int} {dest : Int}

theorem forwardReady_runs (hpoll : 0 ≤ a.poll.ret) (n i : Nat) (packet : InputPacket) (s : RoundState) :
    ∃ ret reading, (forwardReady devfd a.poll.revents dest n i packet).runIn a.env s =
      some (ret, ⟨reading, s.sent ++ a.handed packet (a.reached (List.range' i n))⟩) := by
  induction n generalizing i packet s with
  | zero => exact ⟨0, s.reading, by simp [forwardReady, Prog.runIn, Answers.handed, Answers.reached]⟩
  | succ n ih =>
      rw [List.range'_succ, Answers.reached, forwardReady]
      by_cases hready : a.poll.revents.getD i false = true
      · have hr : a.ready i = true := by
          rw [Answers.ready, hready, decide_eq_true hpoll]
          rfl
        rw [if_pos hready, if_pos hr]
        by_cases hread : (a.read i).ret < 0
        · -- the read fails
          have hfail : a.fails i = true := by simp [Answers.fails, hread]
          refine ⟨-1, i, ?_⟩
          simp [Prog.runIn, Answers.env, Answers.handed, hread, hfail]
        · by_cases hsend : a.send i ≤ 0
          · have hfail : a.fails i = true := by simp [Answers.fails, hsend]
            refine ⟨-1, i, ?_⟩
            simp [Prog.runIn, Answers.env, Answers.handed, hread, hsend, hfail]
          · have hfail : ¬ a.fails i = true := by simp [Answers.fails, hread, hsend]
            obtain ⟨ret, reading, hrest⟩ := ih (i + 1) ⟨BitVec.ofNat 32 i, packet.ie.fill (a.read i).bytes⟩
              ⟨i, s.sent ++ [(⟨BitVec.ofNat 32 i, packet.ie.fill (a.read i).bytes⟩, a.send i)]⟩
            refine ⟨ret, reading, ?_⟩
            rw [if_neg hfail, Answers.handed, if_neg hread]
            simp [Prog.runIn, Answers.env, hread, hsend, hrest]
      · have hr : ¬ a.ready i = true := by
          intro h
          exact hready (by simpa [Answers.ready, hpoll] using h)
        rw [if_neg hready, if_neg hr]
        exact ih (i + 1) packet s

/-- **A round** hands these packets to `send`. -/
theorem round_runs (a : Answers) (k : Nat) (devfd : List Int) (dest : Int) :
    ∃ ret reading, round a k devfd dest =
      some (ret, ⟨reading, a.handed .zero (a.reached (List.range k))⟩) := by
  by_cases hpoll : 0 ≤ a.poll.ret
  · obtain ⟨ret, reading, hrun⟩ := @forwardReady_runs a devfd dest hpoll k 0 .zero ⟨0, []⟩
    refine ⟨ret, reading, ?_⟩
    rw [List.range_eq_range', round, sendInputEvent]
    simpa [Prog.runIn, Answers.env, Int.not_lt.mpr hpoll] using hrun
  · have hnone : ∀ is, a.reached is = [] := by
      intro is
      induction is with
      | nil => rfl
      | cons i is ih => rw [Answers.reached, if_neg (by simp [Answers.ready, hpoll]), ih]
    refine ⟨-1, 0, ?_⟩
    rw [hnone, round, sendInputEvent]
    simp [Prog.runIn, Answers.env, Int.not_le.mp hpoll, Answers.handed]

end Code

/-! ## When the packets are those of the events -/

section Packets

variable {a : Answers} {counts : Int → Bool} {i : Nat} {is : List Nat} {packet : InputPacket}

theorem whole_of_not_short {r : ReadResult 24} (hret : ¬ r.ret < 0) (h : short r = false) : ∃ e, whole r = some e := by
  rw [short, decide_eq_true (Int.not_lt.mp hret), Bool.true_and] at h
  cases hw : whole r with
  | none => rw [hw] at h; cases h
  | some e => exact ⟨e, rfl⟩

/-- A whole event leaves nothing of the one before it. -/
theorem fill_of_whole {r : ReadResult 24} {e : InputEvent} (h : whole r = some e) (old : InputEvent) :
    old.fill r.bytes = e := by
  cases r with
  | error => cases h
  | data d hd =>
      have hlen : d.length = 24 := by
        by_contra hne
        rw [whole, dif_neg hne] at h
        cases h
      rw [whole, dif_pos hlen] at h
      cases h
      exact old.fill_bytes ⟨d, hlen⟩

/-- A read that has failed gives no event. -/
theorem whole_of_failed {r : ReadResult 24} (hret : r.ret < 0) : whole r = none := by
  cases r with
  | error => rfl
  | data d _ => exact absurd hret (Int.not_lt.mpr (Int.natCast_nonneg d.length))

/-- How many packets count. -/
theorem length_handed : ((a.handed packet is).filter fun x => counts x.2).length =
    is.countP fun i => decide (0 ≤ (a.read i).ret) && counts (a.send i) := by
  induction is generalizing packet with
  | nil => rfl
  | cons i is ih =>
      rw [Answers.handed, List.countP_cons]
      split
      · next hret => simp [Int.not_le.mpr hret, ih]
      · next hret =>
        rw [List.filter_cons]
        cases hc : counts (a.send i) with
        | true => simp [Int.not_lt.mp hret, ih]
        | false => simp [ih]

theorem length_wanted :
    (a.wanted counts is).length = is.countP fun i => (whole (a.read i)).isSome && counts (a.send i) := by
  induction is with
  | nil => rfl
  | cons i is ih =>
      rw [Answers.wanted, List.filterMap_cons, List.countP_cons, ← ih]
      cases hc : counts (a.send i) with
      | false => simp [Answers.wanted]
      | true => cases hw : whole (a.read i) <;> simp [Answers.wanted]

/-- **The packets that count** are those of the whole events iff no short read is among them. -/
theorem counted_iff : ((a.handed packet is).filter fun x => counts x.2).map Prod.fst = a.wanted counts is ↔
    ∀ i ∈ is, counts (a.send i) = true → short (a.read i) = false := by
  constructor
  · intro heq
    -- every read that has not failed gives a packet, so that the numbers alone tell
    have hlen := congrArg List.length heq
    rw [List.length_map, length_handed, length_wanted, countP_eq_iff] at hlen
    · intro i hi hc
      cases hshort : short (a.read i) with
      | false => rfl
      | true =>
          rw [short, Bool.and_eq_true] at hshort
          have hsome := hlen i hi (by rw [hshort.1, hc]; rfl)
          rw [hc, Bool.and_true, ← Option.not_isNone, hshort.2] at hsome
          cases hsome
    · intro i hi hwhole
      rw [Bool.and_eq_true] at hwhole ⊢
      refine ⟨decide_eq_true (Int.not_lt.mp fun hret => ?_), hwhole.2⟩
      rw [whole_of_failed hret] at hwhole
      exact absurd hwhole.1 Bool.false_ne_true
  · intro hall
    induction is generalizing packet with
    | nil => rfl
    | cons i is ih =>
        obtain ⟨hhead, hrest⟩ := List.forall_mem_cons.mp hall
        rw [Answers.handed, Answers.wanted, List.filterMap_cons]
        split
        · next hret =>
          rw [whole_of_failed hret]
          cases counts (a.send i) <;> exact ih hrest
        · next hret =>
          rw [List.filter_cons]
          cases hc : counts (a.send i) with
          | false =>
              rw [if_neg Bool.false_ne_true]
              exact ih hrest
          | true =>
              obtain ⟨e, he⟩ := whole_of_not_short hret (hhead hc)
              rw [if_pos rfl, if_pos rfl, he, fill_of_whole he, List.map_cons, ih hrest]
              rfl

end Packets

/-- The descriptor is read in this round: it is ready, and no read or send before it has failed. -/
def Answers.Reads (a : Answers) (i : Nat) : Prop :=
  a.ready i = true ∧ ∀ j < i, a.ready j = true → a.fails j = false

theorem forall_reached (a : Answers) (k : Nat) (P : Nat → Prop) :
    (∀ i ∈ a.reached (List.range k), P i) ↔ ∀ i < k, a.Reads i → P i := by
  have hmem : ∀ i, i ∈ a.reached (List.range k) ↔ i < k ∧ a.Reads i := by
    intro i
    rw [Answers.mem_reached List.pairwise_lt_range, List.mem_range]
    refine and_congr_right fun hi => and_congr_right fun _ => ?_
    exact ⟨fun h j hj => h j (List.mem_range.mpr (Nat.lt_trans hj hi)) hj, fun h j _ hj => h j hj⟩
  constructor
  · intro h i hi hreads
    exact h i ((hmem i).mpr ⟨hi, hreads⟩)
  · intro h i hi
    exact h i ((hmem i).mp hi).1 ((hmem i).mp hi).2

/-- **A round forwards what it has read** iff no descriptor that it reads gives part of an event. The first
    equivalence is about the packets that are handed to `send`, the second about those whose `send` does not fail. -/
theorem round_iff (a : Answers) (k : Nat) (devfd : List Int) (dest : Int) :
    ∃ ret reading sent, round a k devfd dest = some (ret, ⟨reading, sent⟩) ∧
      (sent.map Prod.fst = a.wanted (fun _ => true) (a.reached (List.range k)) ↔
        ∀ i < k, a.Reads i → short (a.read i) = false) ∧
      ((sent.filter fun x => 0 < x.2).map Prod.fst = a.wanted (fun r => 0 < r) (a.reached (List.range k)) ↔
        ∀ i < k, a.Reads i → 0 < a.send i → short (a.read i) = false) := by
  obtain ⟨ret, reading, hrun⟩ := round_runs a k devfd dest
  refine ⟨ret, reading, _, hrun, ?_, ?_⟩
  · have hall := @counted_iff a (fun _ => true) (a.reached (List.range k)) .zero
    rw [List.filter_true, forall_reached] at hall
    simpa using hall
  · have hsent := @counted_iff a (fun r => 0 < r) (a.reached (List.range k)) .zero
    rw [forall_reached] at hsent
    simpa using hsent

/-- Two descriptors are ready; the first gives an event, the second nothing. -/
def emptySecond : Answers where
  poll := ⟨2, [true, true]⟩
  read := fun i => if i = 0 then .data (List.replicate 24 1) (by decide) else .data [] (by decide)
  send := fun _ => 32

/-- The event of the first is sent for the second as well. -/
theorem event_repeated : ¬ ∀ (a : Answers) (k : Nat) (devfd : List Int) (dest : Int),
    (round a k devfd dest).map (fun r => r.2.sent.map Prod.fst) =
      some (a.wanted (fun _ => true) (a.reached (List.range k))) := by
  intro h
  exact absurd (h emptySecond 2 [3, 4] 5) (by decide)

end IOSwitch
