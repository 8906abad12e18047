import IOSwitch.Daemon.Mutex
import IOSwitch.Daemon.Active

/-!
# `Daemon.Drain` — what a sender still forwards after STOP

A sender looks at the flag once per round, after its `send_input_event`. Once the flag is 0 for good, every
sender is in one of two positions: it may still start one round (`Drain.fresh`), or it is in its last one and
may send as many packets as that has devices left (`Drain.inCall`). `drainContract` says how calls move between
them, `Account` what the trace has cost so far; `bounded_forwarding` reads the bound off.

## Contents
- `Drain`, `drainContract`, `drain_block`, `drain_round` — the blocks of a sender.
- `DrainInv` — the position of every sender of a reachable state.
- `readsContract`, `ConfigReads` — a round is over the devices of the sender's config.
- `Account`, `account_step`, `bounded_forwarding`.
-/

namespace IOSwitch

open Lib Sender

/-! ## Positions -/

/-- May start a round, or is in one with so many packets left at most. -/
inductive Drain where
  | fresh
  | inCall (left : Nat)

/-- A packet is sent in a round, and uses up one of those left. Once the flag is down for good (`stopped`) it
    is read as 0. -/
def drainContract (stopped : Bool) : Contract senderI Drain where
  pre g c := match c with
    | .send _ _ => ∃ n, g = .inCall (n + 1)
    | _         => True
  post g c r g' := match c, r with
    | .send _ _, _ => ∀ n, g = .inCall (n + 1) → g' = .inCall n
    | .sending, b  => g' = g ∧ (stopped = true → b = false)
    | _, _         => g' = g

/-- The labels from which a round can be started are reached before any. -/
def DrainLabel : SenderLoc → Drain → Prop
  | .entry, g | .loop _, g | .round _ _, g  => g = .fresh
  | .check _ _, _ | .leave _, _ | .exited, _ => True

theorem drainLabel_fresh (l : SenderLoc) : DrainLabel l .fresh := by
  cases l <;> first | rfl | trivial

variable {stopped : Bool}

/-- A round over `n` devices sends at most `n` packets. -/
theorem forwardReady_drain (devfd : List Int) (revents : List Bool) (dest : Int) (n i : Nat)
    (packet : InputPacket) {m : Nat} (hm : n ≤ m) :
    wp (drainContract stopped) (forwardReady devfd revents dest n i packet) (fun _ _ => True) (.inCall m) := by
  induction n generalizing i packet m with
  | zero => trivial
  | succ n ih =>
      unfold forwardReady
      split
      · refine ⟨trivial, ?_⟩
        rintro r _ rfl
        show wp _ (if r.ret < 0 then _ else _) _ _
        split
        · trivial
        · -- a ready device: one of the packets left is sent
          obtain ⟨m, rfl⟩ : ∃ m', m = m' + 1 := ⟨m - 1, by omega⟩
          refine ⟨⟨m, rfl⟩, ?_⟩
          intro sent g' hg
          obtain rfl := hg m rfl
          show wp _ (if sent ≤ 0 then _ else _) _ _
          split
          · trivial
          · exact ih _ _ (by omega)
      · exact ih _ _ (by omega)

theorem drain_round {env : SenderEnv} {k m : Nat} (hm : k ≤ m) :
    wp (drainContract stopped) (spawnSenderThread (.round env k)) (fun g l => DrainLabel l g) (.inCall m) := by
  have hsend : wp (drainContract stopped) (sendInputEvent k env.deviceFds env.fd) (fun _ _ => True) (.inCall m) := by
    refine ⟨trivial, ?_⟩
    rintro p _ rfl
    show wp _ (if p.ret < 0 then _ else _) _ _
    split
    · trivial
    · exact forwardReady_drain _ _ _ _ _ _ hm
  exact wp_seq hsend fun _ _ _ => trivial

/-- The blocks outside `send_input_event` send nothing, and lead to a new round only from a fresh position. -/
theorem drain_block {l : SenderLoc} {g : Drain} (hl : DrainLabel l g) (hg : stopped = false → g = .fresh)
    (hround : ∀ env k, l ≠ .round env k) :
    wp (drainContract stopped) (spawnSenderThread l) (fun g l => DrainLabel l g) g := by
  cases l with
  | entry =>
      obtain rfl : g = .fresh := hl
      refine wp_mono (wp_neutral setup_silent fun c hc => ?_) ?_
      · cases c with
        | send _ _ => exact absurd trivial hc
        | sending => exact ⟨trivial, fun _ _ h => h.1⟩
        | _ => exact ⟨trivial, fun _ _ h => h⟩
      · rintro _ l' ⟨rfl, -⟩
        exact drainLabel_fresh l'
  | loop env =>
      obtain rfl : g = .fresh := hl
      simp [spawnSenderThread, drainContract, DrainLabel]
  | round env k => exact absurd rfl (hround env k)
  | check env connected =>
      refine ⟨trivial, ?_⟩
      rintro _ _ rfl
      refine ⟨trivial, ?_⟩
      rintro b _ ⟨rfl, hb⟩
      refine ⟨trivial, ?_⟩
      rintro _ _ rfl
      show DrainLabel (if connected && b then _ else _) _
      cases stopped with
      | true =>
          -- the flag is read as 0, and the sender leaves
          rw [hb rfl, Bool.and_false]
          trivial
      | false =>
          obtain rfl := hg rfl
          exact drainLabel_fresh _
  | leave env => exact ⟨trivial, fun _ _ _ => trivial⟩
  | exited => exact hl

/-! ## The devices of a round -/

/-- Reads of the sender's config answer `cfg`. -/
def readsContract (cfg : Config) : Contract senderI Unit where
  pre _ _ := True
  post _ c r _ := match c, r with
    | .config, c' => c' = cfg
    | _, _        => True

/-- A round is over the devices of `cfg`. -/
def RoundsOf (cfg : Config) (l : SenderLoc) (_ : Unit) : Prop :=
  ∀ env k, l = .round env k → k = cfg.numDevices.toNat

theorem reads_verified (cfg : Config) :
    Thread.Verified (readsContract cfg) spawnSenderThread (RoundsOf cfg) := by
  intro l _ hl
  cases l with
  | entry =>
      refine wp_mono (wp_neutral setup_silent fun c _ => ⟨trivial, fun _ _ _ => rfl⟩) ?_
      rintro _ l' ⟨-, hl'⟩ env k rfl
      exact hl'.elim
  | loop env =>
      refine ⟨trivial, fun _ _ _ => ⟨trivial, fun c _ hc => ⟨trivial, fun _ _ _ => ?_⟩⟩⟩
      rintro env' k ⟨⟩
      obtain rfl : c = cfg := hc
      rfl
  | round env k =>
      refine wp_seq (wp_neutral (sendInputEvent_forwards _ _ _) fun c _ => ⟨trivial, fun _ _ _ => rfl⟩) ?_
      rintro _ r - env' k' ⟨⟩
  | check env connected =>
      refine ⟨trivial, fun _ _ _ => ⟨trivial, fun b _ _ => ⟨trivial, fun _ _ _ => ?_⟩⟩⟩
      intro env' k h
      replace h : (if connected && b then SenderLoc.loop env else .leave env) = .round env' k := h
      split at h <;> cases h
  | leave env => exact ⟨trivial, fun _ _ _ => by rintro env' k ⟨⟩⟩
  | exited => exact hl

namespace Daemon

variable {s s' : Daemon} {e : Event} {tr : List Event}

/-! ## Reachable states -/

/-- Where a sender's location puts it. -/
def DrainPos : SenderLoc → Drain → Prop
  | .round _ k, g => ∃ n ≤ k, g = .inCall n
  | _, g          => g = .fresh

/-- Every sender keeps `drainContract`, from the position its location gives it. -/
def DrainInv (s : Daemon) : Prop :=
  ∀ (i : Nat) (d : SenderThread), s.senders[i]? = some d →
    ∃ g, d.thread.Ok (drainContract false) DrainLabel g ∧ DrainPos d.thread.loc g

theorem drainInv_jump (l : SenderLoc) :
    ∃ g, (Thread.start spawnSenderThread l).Ok (drainContract false) DrainLabel g ∧ DrainPos l g := by
  by_cases hround : ∃ env k, l = .round env k
  · obtain ⟨env, k, rfl⟩ := hround
    exact ⟨.inCall k, drain_round (Nat.le_refl k), k, Nat.le_refl k, rfl⟩
  · have hne : ∀ env k, l ≠ .round env k := fun env k hl => hround ⟨env, k, hl⟩
    refine ⟨.fresh, drain_block (drainLabel_fresh l) (fun _ => rfl) hne, ?_⟩
    cases l with
    | round env k => exact absurd rfl (hne env k)
    | _ => rfl

theorem drainInv_step (hinv : DrainInv s) (h : Step s e s') : DrainInv s' := by
  intro i d' hd'
  rcases sender_cases h hd' with ⟨hd, -⟩ | ⟨a, d, -, hd, -, hf⟩ | ⟨-, -, rfl⟩
  · exact hinv i d' hd
  · cases a with
    | jump l =>
        rw [Thread.jump_start hf]
        exact drainInv_jump l
    | did c r =>
        obtain ⟨g, hok, hpos⟩ := hinv i d hd
        rw [Thread.did_loc hf]
        cases c with
        | send dest packet =>
            obtain ⟨n, rfl⟩ := hok.pre hf
            refine ⟨.inCall n, hok.did hf ?_, ?_⟩
            · rintro m ⟨⟩
              rfl
            · cases hl : d.thread.loc with
              | round env k =>
                  rw [hl] at hpos
                  obtain ⟨m, hm, hmn⟩ := hpos
                  cases hmn
                  exact ⟨n, by omega, rfl⟩
              | _ => rw [hl] at hpos; cases hpos
        | sending => exact ⟨g, hok.did hf ⟨rfl, by rintro ⟨⟩⟩, hpos⟩
        | _ => exact ⟨g, hok.did hf rfl, hpos⟩
  · exact drainInv_jump .entry

theorem drainInv_run {cfg : Config} {conn args : Bytes} (h : Run Step (init cfg conn args) tr s) : DrainInv s :=
  h.invariant (fun _ _ hd => by simp [init] at hd) fun _ _ _ => drainInv_step

/-- Every sender whose config has not been released keeps `readsContract` for it. -/
def ConfigReads (s : Daemon) : Prop :=
  ∀ (i : Nat) (d : SenderThread) (b : ConfigBlock), s.senders[i]? = some d → s.configs[d.config]? = some b →
    b.released = false → d.thread.Ok (readsContract b.config) (RoundsOf b.config) ()

/-- A block that is not released after a step was there before it. -/
theorem block_before (h : Step s e s') {ref : Nat} {b : ConfigBlock} (href : ref < s.configs.length)
    (hb : s'.configs[ref]? = some b) (hr : b.released = false) : s.configs[ref]? = some b := by
  by_cases hfree : e = .main (.did .freeConfig ())
  · subst hfree
    rw [← Option.some.inj (shared_call h)] at hb
    replace hb : (s.configs.modify s.config fun b => { b with released := true })[ref]? = some b := hb
    rw [List.getElem?_modify] at hb
    obtain ⟨b₀, hb₀, hmod⟩ := Option.map_eq_some_iff.mp hb
    by_cases hsame : s.config = ref
    · rw [if_pos hsame] at hmod
      rw [← hmod] at hr
      cases hr
    · rw [if_neg hsame] at hmod
      rw [hb₀, ← hmod]
  by_cases hload : ∃ p c, e = .main (.did (.loadConfig p) c)
  · obtain ⟨p, c, rfl⟩ := hload
    rw [← Option.some.inj (shared_call h)] at hb
    replace hb : (s.configs ++ [⟨c, false⟩])[ref]? = some b := hb
    rwa [List.getElem?_append_left href] at hb
  · rw [(config_frame h hfree fun p c he => hload ⟨p, c, he⟩).2] at hb
    exact hb

theorem configReads_step (hcfg : ConfigInv s) (hinv : ConfigReads s) (h : Step s e s') : ConfigReads s' := by
  intro i d' b hd' hb hr
  rcases sender_cases h hd' with ⟨hd, -⟩ | ⟨a, d, rfl, hd, hc, hf⟩ | ⟨-, -, rfl⟩
  · exact hinv i d' b hd (block_before h (hcfg.senders i d' hd) hb hr) hr
  · rw [hc] at hb
    have hb := block_before h (hcfg.senders i d hd) hb hr
    have hok := hinv i d b hd hb hr
    cases a with
    | jump l =>
        rw [Thread.jump_start hf]
        exact reads_verified b.config l () (hok.label hf)
    | did c r =>
        refine hok.did hf ?_
        cases c with
        | config =>
            -- what is read is the block
            obtain ⟨d₀, hd₀, hsh⟩ := shared_sender_call h
            obtain rfl : d = d₀ := Option.some.inj (hd.symm.trans hd₀)
            have hread := (Shared.check_eq.mp hsh).1
            simp [Shared.holdsConfig, hb, hr] at hread
            exact hread.symm
        | _ => trivial
  · exact reads_verified b.config .entry () (by rintro env k ⟨⟩)

theorem configReads_run {cfg : Config} {conn args : Bytes} (h : Run Step (init cfg conn args) tr s) :
    ConfigReads s := by
  induction h with
  | nil => intro i d b hd; simp [init] at hd
  | snoc hrun hs ih => exact configReads_step (configInv_run hrun) ih hs

/-! ## After STOP -/

/-- The number of devices of the round that sender `i` starts in the event. -/
def roundOf (i : Nat) : Event → Option Nat
  | .sender j (.jump (.round _ k)) => if j = i then some k else none
  | _                              => none

theorem roundOf_eq {i k : Nat} (h : roundOf i e = some k) : ∃ env, e = .sender i (.jump (.round env k)) := by
  unfold roundOf at h
  split at h
  · split at h
    · rename_i hij
      cases h
      exact ⟨_, by rw [hij]⟩
    · cases h
  · cases h

/-- The `send_input_event` calls that sender `i` starts, each with its number of devices. -/
def roundsOf (i : Nat) (tr : List Event) : List Nat := tr.filterMap (roundOf i)

/-- Sender `i` sends a packet in the event. -/
def sendsPacket (i : Nat) : Event → Bool
  | .sender j (.did (.send _ _) _) => j = i
  | _                              => false

/-- The number of packets that sender `i` sends. -/
def packetsOf (i : Nat) (tr : List Event) : Nat := tr.countP (sendsPacket i)

theorem roundsOf_snoc (i : Nat) : roundsOf i (tr ++ [e]) = roundsOf i tr ++ (roundOf i e).toList := by
  rw [roundsOf, List.filterMap_append, ← roundsOf]
  cases h : roundOf i e <;> simp [h]

theorem packetsOf_snoc (i : Nat) :
    packetsOf i (tr ++ [e]) = packetsOf i tr + if sendsPacket i e then 1 else 0 := by
  rw [packetsOf, List.countP_append, ← packetsOf, List.countP_singleton]

/-- No handler sets the flag to 1, and no config is reloaded. -/
def quiet : Event → Bool
  | .main (.did (.setSending true) _) => false
  | .main (.did .freeConfig _)        => false
  | .main (.did (.loadConfig _) _)    => false
  | _                                 => true

def Quiet (_ : Daemon) (e : Event) : Prop := quiet e = true

/-- What a sender that was at `start` when the flag fell has done since, when it has got to position `g`. -/
def Account (start : SenderLoc) : Drain → List Nat → Nat → Prop
  | .fresh, rounds, packets    => (∀ env k, start ≠ .round env k) ∧ rounds = [] ∧ packets = 0
  | .inCall n, rounds, packets =>
      (∀ env k, start = .round env k → rounds = [] ∧ packets + n ≤ k) ∧
      ((∀ env k, start ≠ .round env k) → ∃ k, rounds = [k] ∧ packets + n ≤ k)

/-- While all is quiet a flag of 0 stays 0. -/
theorem sending_quiet (hq : quiet e = true) (h : Step s e s') (hs : s.sending = false) : s'.sending = false := by
  by_cases hset : ∃ b, e = .main (.did (.setSending b) ())
  · obtain ⟨b, rfl⟩ := hset
    cases b with
    | true => cases hq
    | false => exact sending_set h
  · rw [sending_frame h fun b he => hset ⟨b, he⟩]
    exact hs

/-- The steps of other threads count for nothing. -/
theorem counts_other {i : Nat} (hne : ∀ a, e ≠ .sender i a) : roundOf i e = none ∧ sendsPacket i e = false := by
  constructor
  · unfold roundOf
    split
    · rw [if_neg]
      rintro rfl
      exact hne _ rfl
    · rfl
  · unfold sendsPacket
    split
    · rw [decide_eq_false]
      rintro rfl
      exact hne _ rfl
    · rfl

/-- A packet sent in a round is one less to be sent. -/
theorem Account.sent {start : SenderLoc} {rounds : List Nat} {packets n : Nat}
    (h : Account start (.inCall (n + 1)) rounds packets) : Account start (.inCall n) rounds (packets + 1) := by
  refine ⟨fun env k hl => ?_, fun hne => ?_⟩
  · obtain ⟨hr, hp⟩ := h.1 env k hl
    exact ⟨hr, by omega⟩
  · obtain ⟨k, hr, hp⟩ := h.2 hne
    exact ⟨k, hr, by omega⟩

/-- A sender that has not yet started a round starts one over `k` devices. -/
theorem Account.round {start : SenderLoc} {rounds : List Nat} {packets : Nat}
    (h : Account start .fresh rounds packets) (k : Nat) : Account start (.inCall k) (rounds ++ [k]) packets := by
  obtain ⟨hstart, rfl, rfl⟩ := h
  exact ⟨fun env k' hl => absurd hl (hstart env k'), fun _ => ⟨k, rfl, Nat.le_of_eq (Nat.zero_add k)⟩⟩

/-- **Step lemma.** The flag is 0, and sender `i` keeps `drainContract` and its account. -/
theorem account_step {i : Nat} {start : SenderLoc} {rounds : List Nat} {packets : Nat}
    (hinv : s.sending = false ∧ ∃ (d : SenderThread) (g : Drain), s.senders[i]? = some d ∧
      d.thread.Ok (drainContract true) DrainLabel g ∧ Account start g rounds packets)
    (hq : quiet e = true) (h : Step s e s') :
    s'.sending = false ∧ ∃ (d : SenderThread) (g : Drain), s'.senders[i]? = some d ∧
      d.thread.Ok (drainContract true) DrainLabel g ∧
      Account start g (rounds ++ (roundOf i e).toList) (packets + if sendsPacket i e then 1 else 0) := by
  obtain ⟨hsend, d, g, hd, hok, hacc⟩ := hinv
  refine ⟨sending_quiet hq h hsend, ?_⟩
  obtain ⟨d', hd', -, ⟨rfl, hne⟩ | ⟨a, rfl, hf⟩⟩ := sender_next h hd
  · obtain ⟨hround, hpacket⟩ := counts_other hne
    rw [hround, hpacket]
    exact ⟨d', g, hd', hok, by simpa using hacc⟩
  · refine ⟨d', ?_⟩
    cases a with
    | jump l =>
        have hl := hok.label hf
        rw [Thread.jump_start hf]
        by_cases hround : ∃ env k, l = .round env k
        · -- a round is started from a fresh position only
          obtain ⟨env, k, rfl⟩ := hround
          obtain rfl : g = .fresh := hl
          exact ⟨.inCall k, hd', drain_round (Nat.le_refl k), by simpa [roundOf, sendsPacket] using hacc.round k⟩
        · have hne : ∀ env k, l ≠ .round env k := fun env k hl => hround ⟨env, k, hl⟩
          have hnone : roundOf i (.sender i (.jump l)) = none := by
            cases l with
            | round env k => exact absurd rfl (hne env k)
            | _ => rfl
          rw [hnone]
          exact ⟨g, hd', drain_block hl (by rintro ⟨⟩) hne, by simpa [sendsPacket] using hacc⟩
    | did c r =>
        cases c with
        | send dest packet =>
            obtain ⟨n, rfl⟩ := hok.pre hf
            have hpost : (drainContract true).post (.inCall (n + 1)) (.send dest packet) r (.inCall n) := by
              rintro m ⟨⟩
              rfl
            exact ⟨.inCall n, hd', hok.did hf hpost, by simpa [roundOf, sendsPacket] using hacc.sent⟩
        | sending =>
            -- the flag has fallen for good, so the sender reads 0
            have hb : r = false := (sending_read h).trans hsend
            exact ⟨g, hd', hok.did hf ⟨rfl, fun _ => hb⟩, by simpa [roundOf, sendsPacket] using hacc⟩
        | _ => exact ⟨g, hd', hok.did hf rfl, by simpa [roundOf, sendsPacket] using hacc⟩

/-- A quiet step leaves the configs alone. -/
theorem config_quiet (hq : quiet e = true) (h : Step s e s') : s'.configs = s.configs := by
  refine (config_frame h ?_ ?_).2
  · rintro rfl
    cases hq
  · rintro p c rfl
    cases hq

/-- Rounds started while all is quiet are over the devices of a config that has not been released. -/
theorem rounds_of_config {i : Nat} {d : SenderThread} {b : ConfigBlock} (hcfg : ConfigInv s)
    (hreads : ConfigReads s) (h : Run (Restrict Quiet Step) s tr s') (hd : s.senders[i]? = some d)
    (hb : s.configs[d.config]? = some b) (hr : b.released = false) :
    ∀ k ∈ roundsOf i tr, k = b.config.numDevices.toNat := by
  suffices hall : ConfigInv s' ∧ ConfigReads s' ∧ s'.configs = s.configs ∧
      (∃ d', s'.senders[i]? = some d' ∧ d'.config = d.config) ∧
      ∀ k ∈ roundsOf i tr, k = b.config.numDevices.toNat from hall.2.2.2.2
  induction h with
  | nil => exact ⟨hcfg, hreads, rfl, ⟨d, hd, rfl⟩, by simp [roundsOf]⟩
  | @snoc tr e a s' hrun hs ih =>
      obtain ⟨hcfg, hreads, hsame, ⟨d₁, hd₁, hc₁⟩, hks⟩ := ih
      obtain ⟨d', hd', hc', -⟩ := sender_next hs.2 hd₁
      refine ⟨configInv_step hcfg hs.2, configReads_step hcfg hreads hs.2,
        (config_quiet hs.1 hs.2).trans hsame, ⟨d', hd', hc'.trans hc₁⟩, fun k hk => ?_⟩
      rw [roundsOf_snoc] at hk
      rcases List.mem_append.mp hk with hk | hk
      · exact hks k hk
      · -- the round just started
        have hround : roundOf i e = some k := by simpa using hk
        obtain ⟨env, rfl⟩ := roundOf_eq hround
        obtain ⟨d₀, t, sh, hd₀, hf, -, -⟩ := step_sender hs.2
        obtain rfl : d₁ = d₀ := Option.some.inj (hd₁.symm.trans hd₀)
        have hok := hreads _ d₁ b hd₁ (by rw [hc₁, hsame]; exact hb) hr
        exact hok.label hf env k rfl

/-- The account of a sender at the moment the flag falls. -/
theorem account_start {l : SenderLoc} {g : Drain} (hpos : DrainPos l g) : Account l g [] 0 := by
  cases l with
  | round env k =>
      obtain ⟨n, hn, rfl⟩ := hpos
      refine ⟨?_, fun hne => absurd rfl (hne env k)⟩
      rintro env' k' ⟨⟩
      exact ⟨rfl, by omega⟩
  | entry | loop _ | check _ _ | leave _ | exited =>
      obtain rfl : g = .fresh := hpos
      exact ⟨by simp, rfl, rfl⟩

section Bounds

variable {start : SenderLoc} {g : Drain} {rounds : List Nat} {packets : Nat} (h : Account start g rounds packets)
include h

/-- A sender that was in a round starts no other, and sends at most as many packets as that one has devices. -/
theorem Account.of_round {env : SenderEnv} {k : Nat} (hl : start = .round env k) : rounds = [] ∧ packets ≤ k := by
  cases g with
  | fresh => exact absurd hl (h.1 env k)
  | inCall n =>
      obtain ⟨hr, hp⟩ := h.1 env k hl
      exact ⟨hr, by omega⟩

/-- Every other sender starts at most one round, and sends no more packets than that one has devices. -/
theorem Account.of_other (hne : ∀ env k, start ≠ .round env k) : rounds.length ≤ 1 ∧ packets ≤ rounds.sum := by
  cases g with
  | fresh =>
      obtain ⟨-, rfl, rfl⟩ := h
      exact ⟨Nat.zero_le 1, Nat.le_refl 0⟩
  | inCall n =>
      obtain ⟨k, rfl, hp⟩ := h.2 hne
      exact ⟨Nat.le_refl 1, by rw [List.sum_singleton]; omega⟩

end Bounds

/-- What a sender does once the flag has fallen adds up. -/
theorem account_run {cfg : Config} {conn args : Bytes} {tr₀ : List Event} {s₀ : Daemon} {i : Nat} {d : SenderThread}
    (h₀ : Run Step (init cfg conn args) tr₀ s₀) (hstop : Step s₀ (mainCall (.setSending false) ()) s)
    (h : Run (Restrict Quiet Step) s tr s') (hd : s.senders[i]? = some d) :
    ∃ g, Account d.thread.loc g (roundsOf i tr) (packetsOf i tr) := by
  obtain ⟨g, hok, hpos⟩ := drainInv_run (h₀.snoc hstop) i d hd
  have hstopped : d.thread.Ok (drainContract true) DrainLabel g := by
    refine wp_contract_mono hok (fun _ _ hpre => hpre) fun g c r g' hpost => ?_
    cases c with
    | sending => exact ⟨hpost.1, by rintro ⟨⟩⟩
    | _ => exact hpost
  have hrun := Run.history (I := fun tr s' => s'.sending = false ∧ ∃ (d' : SenderThread) (g : Drain),
      s'.senders[i]? = some d' ∧ d'.thread.Ok (drainContract true) DrainLabel g ∧
      Account d.thread.loc g (roundsOf i tr) (packetsOf i tr)) h
    ⟨sending_set hstop, d, g, hd, hstopped, account_start hpos⟩ fun tr a e b ha hs => by
      rw [roundsOf_snoc, packetsOf_snoc]
      exact account_step ha hs.1 hs.2
  obtain ⟨-, d', g', -, -, hacc⟩ := hrun
  exact ⟨g', hacc⟩

/-- **Bounded forwarding after STOP.** Let the flag have been set to 0 in a reachable state, and let no handler
    set it to 1 again and no config be reloaded from then on. A sender that was inside a `send_input_event` call
    over `k` devices starts no other and sends at most `k` packets; every other sender starts at most one, and
    sends at most as many packets as that one has devices: those of its config. -/
theorem bounded_forwarding {cfg : Config} {conn args : Bytes} {tr₀ : List Event} {s₀ : Daemon} {i : Nat}
    {d : SenderThread} (h₀ : Run Step (init cfg conn args) tr₀ s₀)
    (hstop : Step s₀ (mainCall (.setSending false) ()) s) (h : Run (Restrict Quiet Step) s tr s')
    (hd : s.senders[i]? = some d) :
    (roundsOf i tr).length ≤ 1 ∧
    (∀ env k, d.thread.loc = .round env k → roundsOf i tr = [] ∧ packetsOf i tr ≤ k) ∧
    ((∀ env k, d.thread.loc ≠ .round env k) → packetsOf i tr ≤ (roundsOf i tr).sum) ∧
    ∀ b, s.configs[d.config]? = some b → b.released = false →
      ∀ k ∈ roundsOf i tr, k = b.config.numDevices.toNat := by
  have hreach := h₀.snoc hstop
  obtain ⟨g, hok, hpos⟩ := drainInv_run hreach i d hd
  -- from here on the flag is read as 0, which the stricter contract says
  have hstopped : d.thread.Ok (drainContract true) DrainLabel g := by
    refine wp_contract_mono hok (fun _ _ hpre => hpre) fun g c r g' hpost => ?_
    cases c with
    | sending => exact ⟨hpost.1, by rintro ⟨⟩⟩
    | _ => exact hpost
  have hrun := Run.history (I := fun tr s' => s'.sending = false ∧ ∃ (d' : SenderThread) (g : Drain),
      s'.senders[i]? = some d' ∧ d'.thread.Ok (drainContract true) DrainLabel g ∧
      Account d.thread.loc g (roundsOf i tr) (packetsOf i tr)) h
    ⟨sending_set hstop, d, g, hd, hstopped, account_start hpos⟩ fun tr a e b ha hs => by
      rw [roundsOf_snoc, packetsOf_snoc]
      exact account_step ha hs.1 hs.2
  obtain ⟨-, -, g', -, -, hacc⟩ := hrun
  refine ⟨?_, fun env k hl => hacc.of_round hl, fun hne => (hacc.of_other hne).2, fun b hb hr =>
    rounds_of_config (configInv_run hreach) (configReads_run hreach) h hd hb hr⟩
  by_cases hround : ∃ env k, d.thread.loc = .round env k
  · obtain ⟨env, k, hl⟩ := hround
    rw [(hacc.of_round hl).1]
    exact Nat.zero_le 1
  · exact (hacc.of_other fun env k hl => hround ⟨env, k, hl⟩).1

/-- The sender joins after the flag has fallen, forwards one event, and leaves. -/
def lateEvents : List Event :=
  [mainCall .unlockSender (), senderCall 0 .socket (3 : Int), senderCall 0 .lock (), senderCall 0 .config padConfig,
    senderCall 0 (.inetPton []) (1 : Int), senderCall 0 (.connect 3 [] 0) (0 : Int), senderCall 0 .unlock (),
    senderCall 0 .config padConfig, senderCall 0 .lock (), senderCall 0 .config padConfig,
    senderCall 0 (.openDevice [112]) (5 : Int), senderCall 0 .unlock (),
    senderCall 0 (.sendConn 3 (.copyName ⟨.inputStream, 1, NewConnection.noNames⟩ 0 [112])) (520 : Int),
    senderCall 0 .createLock (), .sender 0 (.jump (.loop ⟨3, [5]⟩)), senderCall 0 .lock (),
    senderCall 0 .config padConfig, senderCall 0 .unlock (), .sender 0 (.jump (.round ⟨3, [5]⟩ 1)),
    senderCall 0 (.poll [5]) ⟨1, [true]⟩, senderCall 0 (.read 0 5) (received InputEvent.zero.bytes),
    senderCall 0 (.send 3 ⟨0, .zero⟩) (32 : Int), .sender 0 (.jump (.check ⟨3, [5]⟩ true)), senderCall 0 .lock (),
    senderCall 0 .sending false, senderCall 0 .unlock (), .sender 0 (.jump (.leave ⟨3, [5]⟩))]

/-- START, STOP before the sender has run, and the one round it still makes. -/
theorem bounded_forwarding_late :
    ∃ s s', Run (Restrict Quiet Step) s lateEvents s' ∧ s.sending = false ∧ packetsOf 0 lateEvents = 1 ∧
      (roundsOf 0 lateEvents).length ≤ 1 := by
  have hexec : ((execs exec (init padConfig [] []) (boot ++ order .start startEvents ++
      receive (plainArgs .stop) ++ [.main (.jump (.handle commandConn (plainArgs .stop))), mainCall .lockSender ()])).bind
      fun s₀ => (exec s₀ (mainCall (.setSending false) ())).bind fun s =>
        (execs exec s lateEvents).bind fun _ => s.senders[0]?.map fun _ => s.sending) = some false := by
    decide +kernel
  obtain ⟨s₀, h₀, hexec⟩ := Option.bind_eq_some_iff.mp hexec
  obtain ⟨s, hstop, hexec⟩ := Option.bind_eq_some_iff.mp hexec
  obtain ⟨s', hlate, hexec⟩ := Option.bind_eq_some_iff.mp hexec
  obtain ⟨d, hd, hsend⟩ := Option.map_eq_some_iff.mp hexec
  have hquiet : ∀ e ∈ lateEvents, quiet e = true := by
    rw [← List.all_eq_true]
    decide
  have hrun : Run (Restrict Quiet Step) s lateEvents s' :=
    (Run.of_execs hlate).restrict fun e he _ => hquiet e he
  exact ⟨s, s', hrun, hsend, by decide, (bounded_forwarding (Run.of_execs h₀) hstop hrun hd).1⟩

end Daemon

end IOSwitch
