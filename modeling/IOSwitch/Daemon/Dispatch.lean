import IOSwitch.Daemon.OneBit

/-!
# `Daemon.Dispatch` — every command that arrives is dispatched once

A command is received into the stack slot `args` of `run_server`, over what the commands before it have left there, and
is then called through the command table. `commandsReceived` is what the slot holds behind each `recv` that succeeds,
`commandsOf` what is called. The two are the same list, but for the last command, which may not have been called yet
(`dispatched_once`): none is lost, none is called twice, and none overtakes another.
-/

namespace IOSwitch

open Lib Server

/-! ## The slot -/

/-- The slot `args`, and the commands received that have not been dispatched. -/
structure Inbox where
  args : Bytes
  due  : List CommandType

/-- A command is received only when there is none left, and called only then. -/
def inboxContract : Contract serverI Inbox where
  pre g _ := g.due = []
  post g c r g' := match c, r with
    | .recvArgs _, r =>
        g' = if r.ret < 0 then g else ⟨overlay g.args r.bytes, g.due ++ [(CommandArgs.ofMem (overlay g.args r.bytes)).type]⟩
    | _, _           => g' = g

/-- The label carries what the slot holds; on the way to a handler its command is due. -/
def Carries : ServerLoc → Inbox → Prop
  | .entry _ args, g | .loop _ args, g => g = ⟨args, []⟩
  | .handle _ args, g                  => g = ⟨args, [(CommandArgs.ofMem args).type]⟩
  | .returned _, g                     => g.due = []

/-- The calls of the handlers, and of the `INPUT_STREAM` case, leave the slot alone. -/
theorem inbox_neutral {g : Inbox} (hg : g.due = []) {c : ServerCall} (hc : ∀ fd, c ≠ .recvArgs fd) :
    inboxContract.pre g c ∧ ∀ r g', inboxContract.post g c r g' → g' = g := by
  refine ⟨hg, ?_⟩
  intro r g' h
  cases c with
  | recvArgs fd => exact absurd rfl (hc fd)
  | wild => exact r.elim
  | _ => exact h

theorem acceptConn_carries (fd : Int) (conn args : Bytes) :
    wp inboxContract (acceptConn fd conn args) (fun g l => Carries l g) ⟨args, []⟩ := by
  unfold acceptConn
  split
  · have hinput : ∀ c : ServerCall, c.ForInput → inboxContract.pre ⟨args, []⟩ c ∧
        ∀ r g', inboxContract.post ⟨args, []⟩ c r g' → g' = ⟨args, []⟩ := by
      intro c hc
      refine inbox_neutral rfl ?_
      rintro fd rfl
      exact hc
    refine wp_seq (wp_neutral (acceptInput_forInput fd conn) hinput) ?_
    rintro _ _ ⟨rfl, -⟩
    rfl
  · refine ⟨rfl, ?_⟩
    rintro r g rfl
    show wp _ (if r.ret < 0 then _ else _) _ _
    split <;> rfl
  · rfl

theorem block_carries {l : ServerLoc} {g : Inbox} (hl : Carries l g) (hidle : l.handling = false) :
    wp inboxContract (runServer l) (fun g l => Carries l g) g := by
  cases l with
  | entry conn args =>
      obtain rfl : g = ⟨args, []⟩ := hl
      refine ⟨rfl, ?_⟩
      rintro r _ rfl
      show wp _ (if r < 0 then _ else _) _ _
      split <;> rfl
  | loop conn args =>
      obtain rfl : g = ⟨args, []⟩ := hl
      refine ⟨rfl, ?_⟩
      rintro fd _ rfl
      show wp _ (if fd < 0 then _ else _) _ _
      split
      · rfl
      refine ⟨rfl, ?_⟩
      rintro r _ rfl
      show wp _ (if r.ret < 0 then _ else _) _ _
      split
      · rfl
      · exact acceptConn_carries fd _ args
  | handle conn args => cases hidle
  | returned code => exact hl

/-- A handler that has been entered leaves nothing due. -/
theorem handle_carries (conn args : Bytes) :
    wp inboxContract (runServer (.handle conn args)) (fun g l => Carries l g) ⟨args, []⟩ := by
  have hout : ∀ c : ServerCall, c.Handles → inboxContract.pre ⟨args, []⟩ c ∧
      ∀ r g', inboxContract.post ⟨args, []⟩ c r g' → g' = ⟨args, []⟩ := by
    intro c hc
    refine inbox_neutral rfl ?_
    rintro fd rfl
    exact hc trivial
  refine wp_seq (wp_commands _ rfl hout) ?_
  rintro _ result ⟨rfl, -⟩
  show Carries (if result = 1 then _ else _) _
  split <;> rfl

/-! ## Runs -/

namespace Daemon

variable {s s' : Daemon} {e : Event} {tr : List Event}

/-- The slot `args` and the commands received, after an event. -/
def receiveInto (g : Inbox) : Event → Inbox
  | .main (.did (.recvArgs _) r) =>
      if r.ret < 0 then g else ⟨overlay g.args r.bytes, g.due ++ [(CommandArgs.ofMem (overlay g.args r.bytes)).type]⟩
  | _ => g

/-- The commands received in the run, in order; the slot holds `args` before them. -/
def commandsReceived (args : Bytes) (tr : List Event) : List CommandType := (tr.foldl receiveInto ⟨args, []⟩).due

/-- Likewise for those that are still due. -/
def inboxAfter (g : Inbox) (e : Event) : Inbox :=
  match commandOf e with
  | some _ => { g with due := g.due.tail }
  | none   => receiveInto g e

def inboxOf (args : Bytes) (tr : List Event) : Inbox := tr.foldl inboxAfter ⟨args, []⟩

theorem inboxOf_snoc (args : Bytes) (tr : List Event) (e : Event) :
    inboxOf args (tr ++ [e]) = inboxAfter (inboxOf args tr) e := by
  rw [inboxOf, List.foldl_append]
  rfl

/-- The main thread keeps the slot, and what was received is what was dispatched and what is due. -/
structure DispatchInv (args : Bytes) (tr : List Event) (s : Daemon) : Prop where
  main : s.main.Ok inboxContract Carries (inboxOf args tr)
  same : tr.foldl receiveInto ⟨args, []⟩ = ⟨(inboxOf args tr).args, commandsOf tr ++ (inboxOf args tr).due⟩

theorem dispatchInv_init (cfg : Config) (conn args : Bytes) : DispatchInv args [] (init cfg conn args) :=
  ⟨block_carries (l := .entry conn args) rfl rfl, rfl⟩

/-- Other threads have nothing to do with it. -/
theorem receiveInto_frame {g : Inbox} (he : ∀ a, e ≠ .main a) : receiveInto g e = g ∧ commandOf e = none := by
  cases e with
  | main a => exact absurd rfl (he a)
  | _ => exact ⟨rfl, rfl⟩

theorem inboxAfter_did {g : Inbox} {c : ServerCall} {r : c.Resp} :
    inboxContract.post g c r (inboxAfter g (.main (.did c r))) := by
  cases c with
  | wild => exact r.elim
  | _ => rfl

/-- A command that is received is due. -/
theorem same_receive {g g' : Inbox} {cs : List CommandType} (h : g = ⟨g'.args, cs ++ g'.due⟩) (e : Event) :
    receiveInto g e = ⟨(receiveInto g' e).args, cs ++ (receiveInto g' e).due⟩ := by
  subst h
  unfold receiveInto
  split
  · split <;> simp
  · rfl

/-- **Step lemma.** -/
theorem dispatchInv_step {args : Bytes} (hinv : DispatchInv args tr s) (h : Step s e s') :
    DispatchInv args (tr ++ [e]) s' := by
  obtain ⟨hmain, hsame⟩ := hinv
  constructor
  · rw [inboxOf_snoc]
    refine mainOk_step h hmain ?_ ?_ fun he => ?_
    · rintro l rfl hl
      cases l with
      | handle conn' args' =>
          -- the command that was due is called
          have hg : inboxOf args tr = ⟨args', [(CommandArgs.ofMem args').type]⟩ := hl
          rw [hg]
          exact handle_carries conn' args'
      | _ => exact block_carries hl rfl
    · rintro c r rfl -
      exact inboxAfter_did
    · obtain ⟨hsame, hcmd⟩ := receiveInto_frame (g := inboxOf args tr) he
      rw [inboxAfter, hcmd]
      exact hsame
  · rw [inboxOf_snoc, commandsOf_snoc, List.foldl_append, List.foldl_cons, List.foldl_nil]
    cases hcmd : commandOf e with
    | none =>
        rw [inboxAfter, hcmd, Option.toList_none, List.append_nil]
        exact same_receive hsame e
    | some t =>
        rw [inboxAfter, hcmd, Option.toList_some]
        unfold commandOf at hcmd
        split at hcmd
        · next conn' args' =>
          obtain ⟨t', sh, hf, -, -⟩ := step_main h
          have hdue : inboxOf args tr = ⟨args', [(CommandArgs.ofMem args').type]⟩ := hmain.label hf
          rw [hdue] at hsame ⊢
          show List.foldl receiveInto ⟨args, []⟩ tr = ⟨args', (commandsOf tr ++ [t]) ++ []⟩
          rw [hsame, List.append_nil, ← Option.some.inj hcmd]
        · cases hcmd

theorem dispatchInv_run {cfg : Config} {conn args : Bytes} (h : Run Step (init cfg conn args) tr s) :
    DispatchInv args tr s :=
  h.history (dispatchInv_init cfg conn args) fun _ _ _ _ => dispatchInv_step

/-- The command on the way to its handler. -/
def pending (s : Daemon) : List CommandType :=
  match s.main.rest with
  | .ret (.handle _ args) => [(CommandArgs.ofMem args).type]
  | _                     => []

/-- The due command is the one on the way to its handler. -/
theorem DispatchInv.due {args : Bytes} (hinv : DispatchInv args tr s) : (inboxOf args tr).due = pending s := by
  unfold pending
  cases hr : s.main.rest with
  | call c k => exact (hinv.main.of_call hr).1
  | ret l =>
      have hl := hinv.main.of_ret hr
      cases l with
      | handle conn' args' =>
          have hg : inboxOf args tr = ⟨args', [(CommandArgs.ofMem args').type]⟩ := hl
          rw [hg]
      | returned code => exact hl
      | entry conn' args' | loop conn' args' =>
          have hg : inboxOf args tr = ⟨args', []⟩ := hl
          rw [hg]

theorem DispatchInv.received {args : Bytes} (hinv : DispatchInv args tr s) :
    commandsReceived args tr = commandsOf tr ++ pending s := by
  rw [commandsReceived, hinv.same, ← hinv.due]

/-- START is served, and STOP has arrived. -/
def startThenStop : List Event := boot ++ order .start startEvents ++ receive (plainArgs .stop)

/-- The message that a `recv` of a command has found. -/
def messageOf : Event → Option Bytes
  | .main (.did (.recvArgs _) r) => if r.ret < 0 then none else some r.bytes
  | _                            => none

/-- The messages of commands, in order. -/
def messagesOf (tr : List Event) : List Bytes := tr.filterMap messageOf

theorem messagesOf_snoc (tr : List Event) (e : Event) : messagesOf (tr ++ [e]) = messagesOf tr ++ (messageOf e).toList := by
  rw [messagesOf, List.filterMap_append, ← messagesOf]
  cases h : messageOf e <;> simp [h]

/-- A message that is received whole brings its own command, whatever the slot holds. -/
theorem receiveInto_whole (g : Inbox) (h : ∀ m ∈ messageOf e, m.length = CommandArgs.size) :
    (receiveInto g e).due = g.due ++ (messageOf e).toList.map fun m => (CommandArgs.ofMem m).type := by
  unfold receiveInto
  unfold messageOf at h ⊢
  split
  · next fd r =>
    split
    · simp
    · next hret =>
      have hlen : r.bytes.length = CommandArgs.size := h _ (if_neg hret)
      simp [ofMem_overlay hlen]
  · simp

theorem commandsReceived_whole {args : Bytes} (hwhole : ∀ m ∈ messagesOf tr, m.length = CommandArgs.size) :
    commandsReceived args tr = (messagesOf tr).map fun m => (CommandArgs.ofMem m).type := by
  induction tr using List.reverseRecOn with
  | nil => rfl
  | append_singleton tr e ih =>
      rw [messagesOf_snoc] at hwhole ⊢
      have hlast : ∀ m ∈ messageOf e, m.length = CommandArgs.size := fun m hm =>
        hwhole m (List.mem_append_right _ (Option.mem_toList.mpr hm))
      rw [commandsReceived, List.foldl_append, List.map_append, ← ih fun m hm => hwhole m (List.mem_append_left _ hm)]
      exact receiveInto_whole _ hlast

end Daemon

end IOSwitch
