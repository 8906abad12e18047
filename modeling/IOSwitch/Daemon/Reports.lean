import IOSwitch.Daemon.Script
import IOSwitch.Lib.Framing

/-!
# `Daemon.Reports` — where STOP cuts the stream of events

A device delivers its events in reports, each closed by an `EV_SYN`. A sender forwards one event of every ready
device per round, and looks at the flag between rounds, wherever the devices then are in their reports. So the
last event sent for a device is an `EV_SYN` iff the rounds in which the device was ready add up to whole
reports (`ends_on_report_iff`), and a STOP in between cuts one in two (`report_cut`).

## Contents
- `Report`, `firstReports` — what a device delivers.
- `StreamView`, `streamContract`, `stream_verified` — between rounds all that was read has been sent.
- `ends_on_report_iff`, `report_cut`.
-/

namespace IOSwitch

open Lib Sender

/-! ## Reports -/

/-- The event closes a report. -/
def InputEvent.isSyn (e : InputEvent) : Bool := e.type = evSyn

/-- A run of events and the `EV_SYN` that closes it. -/
structure Report where
  body     : List InputEvent
  syn      : InputEvent
  nonempty : body ≠ []
  plain    : ∀ e ∈ body, e.isSyn = false
  closed   : syn.isSyn = true

def Report.events (r : Report) : List InputEvent := r.body ++ [r.syn]

theorem Report.marked (r : Report) : Marked InputEvent.isSyn r.events := ⟨r.body, r.syn, rfl, r.plain, r.closed⟩

/-- The events of the first `m` reports of a device. -/
def firstReports (reports : Nat → Report) (m : Nat) : List InputEvent :=
  ((List.range m).map fun j => (reports j).events).flatten

theorem firstReports_take (reports : Nat → Report) {m n : Nat} (h : m ≤ n) :
    (((List.range n).map fun j => (reports j).events).take m).flatten = firstReports reports m := by
  unfold firstReports
  rw [← List.map_take, List.take_range, Nat.min_eq_left h]

theorem firstReports_mono (reports : Nat → Report) {m n : Nat} (h : m ≤ n) :
    firstReports reports m <+: firstReports reports n := by
  rw [← firstReports_take reports h]
  exact List.IsPrefix.flatten ( List.take_prefix _ _)

/-- What a device has delivered ends in an `EV_SYN` iff it is as long as some of its reports. -/
theorem ends_syn_iff {reports : Nat → Report} {m : Nat} {l : List InputEvent} (hl : l <+: firstReports reports m) :
    (∀ e, l.getLast? = some e → e.isSyn = true) ↔ ∃ n, l.length = (firstReports reports n).length := by
  have hmarked : ∀ b ∈ (List.range m).map fun j => (reports j).events, Marked InputEvent.isSyn b := by
    intro b hb
    obtain ⟨j, -, rfl⟩ := List.mem_map.mp hb
    exact (reports j).marked
  rw [ends_marked_iff hmarked hl]
  constructor
  · rintro ⟨n, rfl⟩
    by_cases hn : n ≤ m
    · exact ⟨n, by rw [firstReports_take reports hn]⟩
    · refine ⟨m, ?_⟩
      rw [List.take_of_length_le (by simp; omega)]
      rfl
  · rintro ⟨n, hn⟩
    refine ⟨min n m, ?_⟩
    rw [firstReports_take reports (Nat.min_le_right n m)]
    -- both are prefixes of the same stream
    have hmin : firstReports reports (min n m) <+: firstReports reports m := firstReports_mono reports (Nat.min_le_right n m)
    have hlen : l.length = (firstReports reports (min n m)).length := by
      by_cases hle : n ≤ m
      · rw [hn, Nat.min_eq_left hle]
      · rw [Nat.min_eq_right (by omega)]
        have hlong := (firstReports_mono reports (show m ≤ n by omega)).length_le
        have hshort := hl.length_le
        omega
    exact (List.prefix_of_prefix_length_le hl hmin hlen.le).eq_of_length hlen

/-! ## The stream of a sender -/

/-- The number of devices read last; for every round so far the devices polled and which of them were ready; the
    events read and sent, each with the index of its device; and whether a call of a round has failed. -/
structure StreamView where
  k      : Nat
  rounds : List (Nat × List Bool)
  read   : List (Nat × InputEvent)
  sent   : List (Nat × InputEvent)
  failed : Bool
  deriving DecidableEq

/-- The events of device `i` among those of all devices. -/
def ofDevice (i : Nat) (l : List (Nat × InputEvent)) : List InputEvent := (l.filter fun p => p.1 = i).map (·.2)

theorem ofDevice_snoc (i j : Nat) (e : InputEvent) (l : List (Nat × InputEvent)) :
    (ofDevice i (l ++ [(j, e)])).length = (ofDevice i l).length + if j = i then 1 else 0 := by
  unfold ofDevice
  by_cases h : j = i <;> simp [h]

/-- Device `i` is ready in the round. -/
def readyIn (i : Nat) (round : Nat × List Bool) : Bool := i < round.1 && round.2.getD i false

namespace StreamView

/-- The number of rounds in which device `i` was ready. -/
def ready (g : StreamView) (i : Nat) : Nat := g.rounds.countP (readyIn i)

/-- The view after a call of the sender. -/
def did (g : StreamView) : (c : SenderCall) → c.Resp → StreamView
  | .config, c  => { g with k := c.numDevices.toNat }
  | .poll _, p  => { g with rounds := g.rounds ++ [(g.k, p.revents)], failed := g.failed || decide (p.ret < 0) }
  | .read i _, r =>
      if r.ret < 0 then { g with failed := true } else { g with read := g.read ++ [(i, .ofMem r.bytes)] }
  | .send _ p, n =>
      if n ≤ 0 then { g with failed := true } else { g with sent := g.sent ++ [(p.devId.toNat, p.ie)] }
  | _, _ => g

/-- What was read has been sent, and from every device as much was read as it was ready. -/
structure Even (g : StreamView) : Prop where
  sent  : g.sent = g.read
  count : ∀ i, (ofDevice i g.read).length = g.ready i

end StreamView

/-- A `read` that succeeds gives one event. -/
def streamContract : Contract senderI StreamView where
  pre _ _ := True
  post g c r g' := g' = g.did c r ∧ match c, r with
    | .read _ _, r => 0 ≤ r.ret → r.bytes.length = 24
    | _, _         => True

/-- Between rounds the stream is even, unless one has failed. -/
def StreamAt : SenderLoc → StreamView → Prop
  | .entry, g | .loop _, g  => g.Even
  | .round _ k, g           => g.Even ∧ g.k = k ∧ k < 2 ^ 16
  | .check _ connected, g   => (connected = true → g.Even) ∧ (g.failed = false → g.Even)
  | .leave _, g             => g.failed = false → g.Even
  | .exited, _              => True

/-! ## The blocks of a sender -/

/-- Whether device `j` is still to be read in the round, when it has got to device `i`. -/
def pending (round : Nat × List Bool) (i j : Nat) : Nat := if i ≤ j ∧ readyIn j round = true then 1 else 0

theorem pending_idle {round : Nat × List Bool} {i : Nat} (h : readyIn i round = false) (j : Nat) :
    pending round i j = pending round (i + 1) j := by
  unfold pending
  by_cases hj : j = i
  · subst hj
    simp [h]
  · have hle : i + 1 ≤ j ↔ i ≤ j := by omega
    simp only [hle]

theorem pending_ready {round : Nat × List Bool} {i : Nat} (h : readyIn i round = true) (j : Nat) :
    pending round i j = pending round (i + 1) j + if i = j then 1 else 0 := by
  unfold pending
  by_cases hj : i = j
  · subst hj
    simp [h]
  · have hle : i + 1 ≤ j ↔ i ≤ j := by omega
    simp only [hle, if_neg hj, Nat.add_zero]

namespace StreamView

variable {g : StreamView} {round : Nat × List Bool} {i : Nat}

/-- In a round that has got to device `i`, those from there on that are ready are still to be read. -/
structure Midway (g : StreamView) (round : Nat × List Bool) (i : Nat) : Prop where
  sent  : g.sent = g.read
  count : ∀ j, (ofDevice j g.read).length + pending round i j = g.ready j

/-- A round begins. -/
theorem Even.midway (h : g.Even) {devfd : List Int} (p : PollResult) :
    (g.did (.poll devfd) p).Midway (g.k, p.revents) 0 where
  sent := h.sent
  count j := by
    have hcount := h.count j
    unfold ready at hcount
    simp only [did, ready, List.countP_append, List.countP_singleton, pending, Nat.zero_le, true_and, hcount]

/-- A device that is not ready is passed over. -/
theorem Midway.skip (h : g.Midway round i) (hi : readyIn i round = false) : g.Midway round (i + 1) where
  sent := h.sent
  count j := by
    rw [← h.count j, pending_idle hi]

/-- A ready device is read, and what was read is sent. -/
theorem Midway.forward (h : g.Midway round i) (hi : readyIn i round = true) (e : InputEvent) :
    Midway { g with read := g.read ++ [(i, e)], sent := g.sent ++ [(i, e)] } round (i + 1) where
  sent := by rw [h.sent]
  count j := by
    show (ofDevice j (g.read ++ [(i, e)])).length + _ = g.ready j
    rw [← h.count j, ofDevice_snoc, pending_ready hi, Nat.add_assoc, Nat.add_comm (if i = j then 1 else 0)]

/-- Behind the last device the round is over. -/
theorem Midway.even (h : g.Midway round round.1) : g.Even where
  sent := h.sent
  count j := by
    have hnone : pending round round.1 j = 0 := by
      unfold pending
      rw [if_neg]
      simp [readyIn]
      omega
    rw [← h.count j, hnone, Nat.add_zero]

end StreamView

/-- What a round of `send_input_event` that has returned `r` leaves. -/
def RoundOver (g : StreamView) (r : Int) : Prop := (0 ≤ r → g.Even) ∧ (g.failed = false → g.Even)

theorem roundOver_failed {g : StreamView} (h : g.failed = true) : RoundOver g (-1) :=
  ⟨fun h => absurd h (by decide), fun hok => absurd (h.symm.trans hok) (by decide)⟩

/-- **The loop of `send_input_event`.** -/
theorem forwardReady_stream (devfd : List Int) {revents : List Bool} (dest : Int) (n i : Nat) (packet : InputPacket)
    {k : Nat} {g : StreamView} (hk : i + n = k) (hsmall : k < 2 ^ 16) (hg : g.Midway (k, revents) i) :
    wp streamContract (forwardReady devfd revents dest n i packet) (fun g' r => RoundOver g' r) g := by
  induction n generalizing g i packet with
  | zero =>
      obtain rfl : i = k := hk
      exact ⟨fun _ => hg.even, fun _ => hg.even⟩
  | succ n ih =>
      have hlt : i < k := by omega
      unfold forwardReady
      split
      · next hready =>
        have hin : readyIn i (k, revents) = true := by simpa [readyIn, hlt] using hready
        refine ⟨trivial, ?_⟩
        rintro r g₁ ⟨hg₁, hwhole⟩
        show wp _ (if r.ret < 0 then _ else _) _ _
        by_cases hret : r.ret < 0
        · rw [if_pos hret]
          apply roundOver_failed
          simp [hg₁, StreamView.did, hret]
        rw [if_neg hret]
        refine ⟨trivial, ?_⟩
        rintro sent g₂ ⟨hg₂, -⟩
        show wp _ (if sent ≤ 0 then _ else _) _ _
        by_cases hsent : sent ≤ 0
        · rw [if_pos hsent]
          apply roundOver_failed
          simp [hg₂, StreamView.did, hsent]
        rw [if_neg hsent]
        -- the packet holds the event just read
        have hid : (BitVec.ofNat 32 i).toNat = i := by
          rw [BitVec.toNat_ofNat]
          omega
        have hfill : packet.ie.fill r.bytes = .ofMem r.bytes := packet.ie.fill_whole (hwhole (Int.not_lt.mp hret))
        have hnext : g₂ = { g with
            read := g.read ++ [(i, .ofMem r.bytes)], sent := g.sent ++ [(i, .ofMem r.bytes)] } := by
          rw [hg₂, hg₁]
          simp [StreamView.did, hret, hsent, hid, hfill]
        rw [hnext]
        exact ih (i + 1) _ (by omega) (hg.forward hin _)
      · next hready =>
        refine ih (i + 1) _ (by omega) (hg.skip ?_)
        simpa [readyIn, hlt] using hready

/-- **Every block of a sender** keeps the stream even between rounds. -/
theorem stream_verified : Thread.Verified streamContract spawnSenderThread StreamAt := by
  intro l g hl
  cases l with
  | entry =>
      have hkeep : wp streamContract setup (fun g' l' => g'.Even ∧ l'.afterSetup) g := by
        refine wp_keeps setup_silent ?_ hl
        intro g c hg hc
        cases c with
        | poll _ | read _ _ | send _ _ => exact absurd trivial hc
        | _ =>
            refine ⟨trivial, ?_⟩
            rintro r _ ⟨rfl, -⟩
            exact ⟨hg.sent, hg.count⟩
      refine wp_mono hkeep ?_
      intro g' l' h
      cases l' with
      | loop env => exact h.1
      | exited => trivial
      | entry | round _ _ | check _ _ | leave _ => exact h.2.elim
  | loop env =>
      refine ⟨trivial, ?_⟩
      rintro _ _ ⟨rfl, -⟩
      refine ⟨trivial, ?_⟩
      rintro c _ ⟨rfl, -⟩
      refine ⟨trivial, ?_⟩
      rintro _ _ ⟨rfl, -⟩
      exact ⟨⟨hl.sent, hl.count⟩, rfl, c.numDevices.toNat_lt⟩
  | round env k =>
      obtain ⟨heven, hk, hsmall⟩ := hl
      have hsend : wp streamContract (sendInputEvent k env.deviceFds env.fd) (fun g' r => RoundOver g' r) g := by
        refine ⟨trivial, ?_⟩
        rintro p g' ⟨hg', -⟩
        have hmid : (g.did (.poll (env.deviceFds.take k)) p).Midway (g.k, p.revents) 0 := heven.midway p
        show wp _ (if p.ret < 0 then _ else _) _ _
        split
        · next hret =>
          apply roundOver_failed
          simp [hg', StreamView.did, hret]
        · rw [hg']
          rw [hk] at hmid
          exact forwardReady_stream _ _ k 0 _ (Nat.zero_add k) hsmall hmid
      refine wp_seq hsend ?_
      intro g' r h
      exact ⟨fun hr => h.1 (of_decide_eq_true hr), h.2⟩
  | check env connected =>
      refine ⟨trivial, ?_⟩
      rintro _ _ ⟨rfl, -⟩
      refine ⟨trivial, ?_⟩
      rintro b _ ⟨rfl, -⟩
      refine ⟨trivial, ?_⟩
      rintro _ _ ⟨rfl, -⟩
      show StreamAt (if connected && b then _ else _) _
      split
      · next h => exact hl.1 (Bool.and_eq_true_iff.mp h).1
      · exact hl.2
  | leave env =>
      refine ⟨trivial, ?_⟩
      intro _ _ _
      trivial
  | exited => trivial

namespace Daemon

variable {s s' : Daemon} {e : Event} {tr : List Event}

/-! ## The senders of the daemon -/

/-- The stream of sender `i` after an event. -/
def streamAfter (i : Nat) (g : StreamView) : Event → StreamView
  | .sender j (.did c r) => if j = i then g.did c r else g
  | _                    => g

/-- The stream of sender `i` after the events `tr`. -/
def streamOf (i : Nat) (tr : List Event) : StreamView := tr.foldl (streamAfter i) ⟨0, [], [], [], false⟩

theorem streamOf_snoc (i : Nat) : streamOf i (tr ++ [e]) = streamAfter i (streamOf i tr) e := by
  unfold streamOf
  rw [List.foldl_append]
  rfl

theorem streamAfter_other {i : Nat} {g : StreamView} (he : ∀ a, e ≠ .sender i a) : streamAfter i g e = g := by
  unfold streamAfter
  split
  · rw [if_neg]
    intro hij
    subst hij
    exact he _ rfl
  · rfl

/-- A `read` of a device gives one event, if it succeeds. -/
def OneEvent (_ : Daemon) : Event → Prop
  | .sender _ (.did (.read _ _) r) => 0 ≤ r.ret → r.bytes.length = 24
  | _                              => True

/-- Every sender keeps its stream even between rounds, and has none before it is created. -/
structure StreamInv (tr : List Event) (s : Daemon) : Prop where
  senders : ∀ (i : Nat) (d : SenderThread), s.senders[i]? = some d → d.thread.Ok streamContract StreamAt (streamOf i tr)
  none    : ∀ i, s.senders.length ≤ i → streamOf i tr = streamOf i []

theorem streamInv_init (cfg : Config) (conn args : Bytes) : StreamInv [] (init cfg conn args) where
  senders := fun _ _ hd => by simp [init] at hd
  none := fun _ _ => rfl

theorem even_start (i : Nat) : (streamOf i []).Even where
  sent := rfl
  count := fun _ => rfl

/-- **Step lemma.** -/
theorem streamInv_step (hinv : StreamInv tr s) (hone : OneEvent s e) (h : Step s e s') : StreamInv (tr ++ [e]) s' := by
  constructor
  · apply sendersOk_step h hinv.senders
    · intro i l he hl
      subst he
      rw [streamOf_snoc]
      exact stream_verified l _ hl
    · intro i c r he _
      subst he
      refine ⟨?_, ?_⟩
      · rw [streamOf_snoc]
        simp [streamAfter]
      · cases c with
        | read n fd => exact hone
        | _ => trivial
    · intro he
      subst he
      rw [streamOf_snoc, streamAfter_other (by simp), hinv.none _ (Nat.le_refl _)]
      exact stream_verified .entry _ (even_start _)
    · intro i _ hne
      rw [streamOf_snoc, streamAfter_other hne]
  · intro i hi
    have hbefore : s.senders.length ≤ i := (senders_length_le h).trans hi
    rw [streamOf_snoc, streamAfter_other, hinv.none i hbefore]
    intro a he
    subst he
    obtain ⟨d, t, sh, hd, -, -, -⟩ := step_sender h
    have hlt := (List.getElem?_eq_some_iff.mp hd).1
    omega

/-! ## The law of the reports -/

/-- Sender `i` is about to leave its loop. -/
def Leaving (s : Daemon) (i : Nat) : Prop := ∃ d env, s.senders[i]? = some d ∧ d.thread.rest = .ret (.leave env)

/-- What was read of each device is the beginning of its reports. -/
def Yields (reports : Nat → Nat → Report) (g : StreamView) : Prop :=
  ∀ i, ∃ m, ofDevice i g.read <+: firstReports (reports i) m

/-- The last event sent for each device, if there is one, is an `EV_SYN`. -/
def EndsOnReport (g : StreamView) : Prop := ∀ i e, (ofDevice i g.sent).getLast? = some e → e.isSyn = true

/-- The rounds in which a device was ready add up to whole reports of it. -/
def BetweenReports (reports : Nat → Nat → Report) (g : StreamView) : Prop :=
  ∀ i, ∃ m, g.ready i = (firstReports (reports i) m).length

/-- **The end of a stream.** Let the devices of a sender deliver reports, one event a `read`. When it leaves its
    loop with no round failed (so it has found the flag at 0), the last event it has sent for each device is an
    `EV_SYN` iff the rounds in which the device was ready add up to whole reports. -/
theorem ends_on_report_iff {cfg : Config} {conn args : Bytes} {i : Nat} {reports : Nat → Nat → Report}
    (h : Run (Restrict OneEvent Step) (init cfg conn args) tr s) (hyields : Yields reports (streamOf i tr))
    (hleave : Leaving s i) (hflag : (streamOf i tr).failed = false) :
    EndsOnReport (streamOf i tr) ↔ BetweenReports reports (streamOf i tr) := by
  have hinv : StreamInv tr s := by
    apply h.history (streamInv_init cfg conn args)
    intro tr a e b hinv hs
    exact streamInv_step hinv hs.1 hs.2
  obtain ⟨d, env, hd, hr⟩ := hleave
  have heven : (streamOf i tr).Even := (hinv.senders i d hd).of_ret hr hflag
  apply forall_congr'
  intro j
  obtain ⟨m, hm⟩ := hyields j
  rw [heven.sent, ← heven.count j]
  exact ends_syn_iff hm

/-! ## A report sent, and a report cut -/

/-- A key is pressed. -/
def keyEvent : InputEvent := ⟨List.replicate 16 0 ++ 1 :: List.replicate 7 0, by decide⟩

/-- A report of one key. -/
def keyReport : Report where
  body     := [keyEvent]
  syn      := .zero
  nonempty := by simp
  plain    := by simp; decide
  closed   := by decide

/-- START, and a sender with one device gets to its loop. -/
def streamStart : List Event := boot ++ order .start startEvents ++ joinPad 0

/-- A round with the key, and one with the `EV_SYN`; in between comes STOP. -/
def wholeEvents : List Event :=
  streamStart ++ padRound 0 keyEvent true ++ [.sender 0 (.jump (.loop ⟨3, [5]⟩))] ++ order .stop stopEvents ++
    padRound 0 .zero false

/-- STOP, and a round with the key. -/
def cutEvents : List Event := streamStart ++ order .stop stopEvents ++ padRound 0 keyEvent false

instance (s : Daemon) (e : Event) : Decidable (OneEvent s e) := by
  unfold OneEvent
  split <;> infer_instance

theorem leaving_of_result {i : Nat} {env : SenderEnv}
    (h : (s.senders[i]?.bind fun d => d.thread.rest.result) = some (.leave env)) : Leaving s i := by
  obtain ⟨d, hd, hr⟩ := Option.bind_eq_some_iff.mp h
  exact ⟨d, env, hd, Prog.result_eq hr⟩

/-- What the device has delivered is the beginning of its reports. -/
theorem yields_key {g : StreamView} {l : List InputEvent} (hread : g.read = l.map fun e => (0, e))
    (hl : l <+: [keyEvent, .zero]) : Yields (fun _ _ => keyReport) g := by
  intro i
  rw [hread]
  by_cases hi : 0 = i
  · subst hi
    have hall : ofDevice 0 (l.map fun e => (0, e)) = l := by
      simp [ofDevice, List.filter_map, Function.comp_def]
    rw [hall]
    exact ⟨1, hl⟩
  · have hnone : ofDevice i (l.map fun e => (0, e)) = [] := by
      simp [ofDevice, List.filter_map, Function.comp_def, hi]
    rw [hnone]
    exact ⟨0, List.nil_prefix⟩

theorem ends_on_report_iff_whole :
    ∃ s, Run (Restrict OneEvent Step) (init padConfig [] []) wholeEvents s ∧ EndsOnReport (streamOf 0 wholeEvents) := by
  have hexec : (execs (guarded OneEvent exec) (init padConfig [] []) wholeEvents).map
      (fun s => s.senders[0]?.bind fun d => d.thread.rest.result) = some (some (.leave ⟨3, [5]⟩)) := by
    decide +kernel
  obtain ⟨s, hrun, hleave⟩ := Run.exists_of_execs_guarded hexec
  have hview : streamOf 0 wholeEvents =
      ⟨1, [(1, [true]), (1, [true])], [(0, keyEvent), (0, .zero)], [(0, keyEvent), (0, .zero)], false⟩ := by
    decide +kernel
  have hyields : Yields (fun _ _ => keyReport) (streamOf 0 wholeEvents) := by
    rw [hview]
    exact yields_key (l := [keyEvent, .zero]) rfl (List.prefix_refl _)
  refine ⟨s, hrun, (ends_on_report_iff hrun hyields (leaving_of_result hleave) (by rw [hview])).mpr ?_⟩
  -- the device was ready in two rounds, as many as a report has events
  intro i
  rw [hview]
  by_cases hi : i = 0
  · exact ⟨1, by subst hi; decide⟩
  · exact ⟨0, by simp [StreamView.ready, readyIn, hi, firstReports]⟩

/-- **A report cut in two**: the sender finds the flag at 0 after a round, and has sent a key last. -/
theorem report_cut :
    ∃ s, Run (Restrict OneEvent Step) (init padConfig [] []) cutEvents s ∧ s.sending = false ∧
      Yields (fun _ _ => keyReport) (streamOf 0 cutEvents) ∧ Leaving s 0 ∧ (streamOf 0 cutEvents).failed = false ∧
      ¬ EndsOnReport (streamOf 0 cutEvents) := by
  have hexec : (execs (guarded OneEvent exec) (init padConfig [] []) cutEvents).map
      (fun s => (s.sending, s.senders[0]?.bind fun d => d.thread.rest.result)) =
      some (false, some (.leave ⟨3, [5]⟩)) := by
    decide +kernel
  obtain ⟨s, hrun, hfin⟩ := Run.exists_of_execs_guarded hexec
  obtain ⟨hsending, hleave⟩ := Prod.mk.inj hfin
  have hview : streamOf 0 cutEvents = ⟨1, [(1, [true])], [(0, keyEvent)], [(0, keyEvent)], false⟩ := by
    decide +kernel
  rw [hview]
  refine ⟨s, hrun, hsending, ?_, leaving_of_result hleave, rfl, ?_⟩
  · exact yields_key (l := [keyEvent]) rfl ⟨[.zero], rfl⟩
  · intro hends
    have hsyn : keyEvent.isSyn = true := hends 0 keyEvent rfl
    exact absurd hsyn (by decide)

end Daemon

end IOSwitch
