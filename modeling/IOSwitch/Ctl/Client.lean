import IOSwitch.Ctl.Precedence

/-!
# `Ctl.Client` — the conversation of `ioswitchctl` with a daemon

Whatever the arguments, the files and the answers of its calls, `main` says one thing: that a command comes, and the
command of the last `-t` (`main_conversation`). Neither the config file nor another option gets to the command, and the
message never brings a config.
-/

namespace IOSwitch

open Lib Tokenizer Config

namespace Ctl

open CtlConfig Getopt

/-! ## The command -/

/-- A `-t` replaces the command. -/
def giveCommand (t : CommandType) : Opt → CommandType
  | .arg c optarg => if c = letterT then strToCommand optarg else t
  | _             => t

/-- The command of the last `-t`. -/
def commandGiven (os : List Opt) : CommandType := os.foldl giveCommand .none

/-- `getopt` has reported a letter that is not in the option string. -/
def Unknown (os : List Opt) : Prop := ∃ c, Opt.unknown c ∈ os

/-- What is given can be dispatched. -/
theorem strToCommand_known (w : Bytes) (code : Nat) : strToCommand w ≠ .other code := by
  unfold strToCommand
  repeat' split
  all_goals rintro ⟨⟩

theorem commandGiven_known (os : List Opt) (code : Nat) : commandGiven os ≠ .other code := by
  have hfold : ∀ t, t ≠ .other code → os.foldl giveCommand t ≠ .other code := by
    induction os with
    | nil => exact fun t ht => ht
    | cons o os ih =>
        intro t ht
        refine ih _ ?_
        unfold giveCommand
        split
        · split
          · exact strToCommand_known _ code
          · exact ht
        · exact ht
  exact hfold .none (by rintro ⟨⟩)

section Writes

variable {config config' : Block CtlConfig.size}

/-- The command is in front of all that a write behind it can reach. -/
theorem store_keeps_command {o : Nat} {s : Bytes} (h : config.store o s = some config') (ho : 4 ≤ o) :
    command config' = command config :=
  congrArg (fun s => CommandType.ofCode (ofLe s)) (Block.take_store h ho)

theorem store_gives_command {w : Bytes} (h : config.store 0 (toLe 4 (strToCommand w).code) = some config') :
    command config' = strToCommand w :=
  (congrFun (store_command h) .command).trans (Function.update_self ..)

end Writes

section Options

variable {env : Env} {s s' : Locals}

theorem setOption_command {c : UInt8} {w : Bytes} (h : setOption env s c w = some s') :
    command s'.config = giveCommand (command s.config) (.arg c w) := by
  show _ = if c = letterT then strToCommand w else command s.config
  unfold setOption at h
  split at h
  · next hd =>
    obtain ⟨config, hstore, h⟩ := Option.bind_eq_some_iff.mp h
    cases h
    rw [hd, if_neg (by decide)]
    exact store_keeps_command hstore (by decide)
  split at h
  · next ht =>
    obtain ⟨config, hstore, h⟩ := Option.bind_eq_some_iff.mp h
    cases h
    rw [if_pos ht]
    exact store_gives_command hstore
  next hne =>
  rw [if_neg hne]
  split at h
  · obtain ⟨config, hstore, h⟩ := Option.bind_eq_some_iff.mp h
    cases h
    exact store_keeps_command hstore (by decide)
  split at h
  · cases h
    rfl
  split at h
  · obtain ⟨path, -, h⟩ := Option.bind_eq_some_iff.mp h
    cases h
    rfl
  · cases h
    rfl

/-- The loop ends early at the first unknown letter, and otherwise with the command of the last `-t`. -/
theorem parseOptions_command {os : List Opt} {r : Int ⊕ Locals} (h : parseOptions env s os = some r) :
    (r = .inl 1 ∧ Unknown os) ∨
      ∃ s', r = .inr s' ∧ ¬ Unknown os ∧ command s'.config = os.foldl giveCommand (command s.config) := by
  have hskip : ∀ {o : Opt} {os : List Opt}, (∀ c, o ≠ .unknown c) → (Unknown (o :: os) ↔ Unknown os) := by
    intro o os ho
    simp only [Unknown, List.mem_cons]
    exact exists_congr fun c => or_iff_right (ho c).symm
  induction os generalizing s with
  | nil =>
      cases h
      exact Or.inr ⟨s, rfl, by simp [Unknown], rfl⟩
  | cons o os ih =>
      cases o with
      | unknown c =>
          cases h
          exact Or.inl ⟨rfl, c, List.mem_cons_self⟩
      | arg c w =>
          obtain ⟨s₁, hset, h⟩ := Option.bind_eq_some_iff.mp h
          rw [hskip fun c => by rintro ⟨⟩, List.foldl_cons, ← setOption_command hset]
          exact ih h
      | missing c =>
          rw [hskip fun c => by rintro ⟨⟩]
          exact ih h
      | flag c =>
          rw [hskip fun c => by rintro ⟨⟩]
          exact ih h

end Options

section File

variable {config config' : Block CtlConfig.size}

theorem storePort_command {o : Nat} {port : Option Bytes} (h : storePort o config port = some config') (ho : 4 ≤ o) :
    command config' = command config := by
  cases port with
  | none =>
      cases h
      rfl
  | some w =>
      rw [storePort, takePort] at h
      split at h
      · exact store_keeps_command h ho
      · cases h
        rfl

/-- The file has no say in the command. -/
theorem settle_command {env : Env} {s : Locals} (h : settle env s = some config) : command config = command s.config := by
  unfold settle at h
  split at h
  · obtain ⟨t, -, h⟩ := Option.bind_eq_some_iff.mp h
    obtain ⟨ip, daemonPort, sourcePort, b, c, -, hip, -, hdaemon, -, hsource⟩ := (parseTokens_eq t s.config config).mp h
    rw [storePort_command hsource (by decide), storePort_command hdaemon (by decide)]
    cases ip with
    | none =>
        cases hip
        rfl
    | some w => exact store_keeps_command hip (by decide)
  · cases h
    rfl

end File

/-! ## The conversation -/

/-- What announces a command. -/
def announcement : NewConnection := ⟨.command, 0, NewConnection.noNames⟩

/-- The message of a command, which brings no config. -/
def plainCommand (t : CommandType) : CommandArgs := ⟨t, 0, List.replicate 256 0⟩

/-- The calls of a conversation on socket `fd` in which nothing fails. -/
def conversation (fd : Int) (ip : Bytes) (port : UInt16) (args : CommandArgs) : List CtlCall :=
  [.socket, .inetPton ip, .connect fd ip port, .sendConn fd announcement, .sendArgs fd args, .close fd]

/-- The socket of the conversation, which its first call has answered. -/
def socketOf : List (Sigma CtlCall.Resp) → Int
  | ⟨.socket, fd⟩ :: _ => fd
  | _                  => 0

/-- The answer is no error. -/
def Succeeds : (c : CtlCall) → c.Resp → Prop
  | .socket, fd                                => 0 ≤ fd
  | .connect _ _ _, r                          => 0 ≤ r
  | .inetPton _, r | .sendConn _ _, r | .sendArgs _ _, r => 0 < r
  | .close _, _                                => True

/-- The calls made are the start of a conversation that ends with the first error; on success it is whole. -/
structure Converses (ip : Bytes) (port : UInt16) (args : CommandArgs) (g : List (Sigma CtlCall.Resp)) : Prop where
  start : g.map Sigma.fst <+: conversation (socketOf g) ip port args
  ended : g.map Sigma.fst = conversation (socketOf g) ip port args ↔ ∀ x ∈ g, Succeeds x.1 x.2

/-- The next call is that of the conversation, and nothing has failed so far. -/
def Continues (ip : Bytes) (port : UInt16) (args : CommandArgs) (g : List (Sigma CtlCall.Resp)) (c : CtlCall) : Prop :=
  g.map Sigma.fst ++ [c] <+: conversation (socketOf g) ip port args ∧ ∀ x ∈ g, Succeeds x.1 x.2

/-- A conversation that fails ends there. -/
theorem converses_failed {ip : Bytes} {port : UInt16} {args : CommandArgs} {g : List (Sigma CtlCall.Resp)}
    {x : Sigma CtlCall.Resp} (hstart : (g ++ [x]).map Sigma.fst <+: conversation (socketOf (g ++ [x])) ip port args)
    (hshort : g.length < 5) (hx : ¬ Succeeds x.1 x.2) : Converses ip port args (g ++ [x]) := by
  refine ⟨hstart, ?_⟩
  constructor
  · intro hwhole
    have hlen := congrArg List.length hwhole
    rw [List.length_map, List.length_append, List.length_singleton] at hlen
    exact absurd hlen (by simp only [conversation, List.length_cons, List.length_nil]; omega)
  · intro hall
    exact absurd (hall x (by simp)) hx

/-- **`send_command`** holds the conversation. -/
theorem sendCommand_converses (config : Block CtlConfig.size) :
    wp (Thread.history (I := ctlI) (Continues (daemonIp config) (daemonPort config) (plainCommand (command config))))
      (sendCommand config)
      (fun g _ => Converses (daemonIp config) (daemonPort config) (plainCommand (command config)) g) [] := by
  have hplain : (⟨command config, 0, List.replicate 256 0⟩ : CommandArgs) = plainCommand (command config) := rfl
  rw [sendCommand, hplain]
  generalize plainCommand (command config) = args
  refine ⟨⟨⟨_, rfl⟩, by simp⟩, ?_⟩
  rintro fd _ rfl
  show wp _ (if fd < 0 then _ else _) _ _
  split
  · next hfd => exact converses_failed (g := []) ⟨_, rfl⟩ (by simp) (Int.not_le.mpr hfd)
  next hfd =>
  have hfd : Succeeds .socket fd := Int.not_lt.mp hfd
  refine ⟨⟨⟨_, rfl⟩, by simpa using hfd⟩, ?_⟩
  rintro r _ rfl
  show wp _ (if r ≤ 0 then _ else _) _ _
  split
  · next hr => exact converses_failed (g := [_]) ⟨_, rfl⟩ (by simp) (Int.not_lt.mpr hr)
  next hr =>
  have hpton : Succeeds (.inetPton (daemonIp config)) r := Int.not_le.mp hr
  refine ⟨⟨⟨_, rfl⟩, by simpa using ⟨hfd, hpton⟩⟩, ?_⟩
  rintro r₂ _ rfl
  show wp _ (if r₂ < 0 then _ else _) _ _
  split
  · next hr => exact converses_failed (g := [_, _]) ⟨_, rfl⟩ (by simp) (Int.not_le.mpr hr)
  next hr =>
  have hconnect : Succeeds (.connect fd (daemonIp config) (daemonPort config)) r₂ := Int.not_lt.mp hr
  refine ⟨⟨⟨_, rfl⟩, by simpa using ⟨hfd, hpton, hconnect⟩⟩, ?_⟩
  rintro r₃ _ rfl
  show wp _ (if r₃ ≤ 0 then _ else _) _ _
  split
  · next hr => exact converses_failed (g := [_, _, _]) ⟨_, rfl⟩ (by simp) (Int.not_lt.mpr hr)
  next hr =>
  have hconn : Succeeds (.sendConn fd announcement) r₃ := Int.not_le.mp hr
  refine ⟨⟨⟨_, rfl⟩, by simpa using ⟨hfd, hpton, hconnect, hconn⟩⟩, ?_⟩
  rintro r₄ _ rfl
  show wp _ (if r₄ ≤ 0 then _ else _) _ _
  split
  · next hr => exact converses_failed (g := [_, _, _, _]) ⟨_, rfl⟩ (by simp) (Int.not_lt.mpr hr)
  next hr =>
  have hargs : Succeeds (.sendArgs fd args) r₄ := Int.not_le.mp hr
  refine ⟨⟨⟨_, rfl⟩, by simpa using ⟨hfd, hpton, hconnect, hconn, hargs⟩⟩, ?_⟩
  rintro _ _ rfl
  refine ⟨⟨_, rfl⟩, iff_of_true rfl ?_⟩
  have hclose : Succeeds (.close fd) () := trivial
  simpa using ⟨hfd, hpton, hconnect, hconn, hargs, hclose⟩

/-! ## `main` -/

section Main

variable {env : Env} {argv : List Bytes} {p : Prog ctlI Int}

/-- `main` returns 1 on an unknown letter, and otherwise calls `send_command` with the command of the last `-t`. -/
theorem main_cases (h : main env argv = some p) :
    (Unknown (getopt optstring none argv) ∧ p = .ret 1) ∨
      ¬ Unknown (getopt optstring none argv) ∧ ∃ config, command config = commandGiven (getopt optstring none argv) ∧
        p = (do let _ ← sendCommand config; return 0) := by
  obtain ⟨path, -, h⟩ := Option.bind_eq_some_iff.mp h
  obtain ⟨r, hparse, h⟩ := Option.bind_eq_some_iff.mp h
  rcases parseOptions_command hparse with ⟨rfl, hunknown⟩ | ⟨s, rfl, hknown, hcommand⟩
  · exact Or.inl ⟨hunknown, (Option.some.inj h).symm⟩
  · obtain ⟨config, hsettle, h⟩ := Option.bind_eq_some_iff.mp h
    refine Or.inr ⟨hknown, config, ?_, (Option.some.inj h).symm⟩
    rw [settle_command hsettle, hcommand]
    rfl

/-- What is sent is the announcement of a command, or this command. -/
def Says (t : CommandType) : CtlCall → Prop
  | .sendConn _ conn => conn = announcement
  | .sendArgs _ args => args = plainCommand t
  | _                => True

theorem Continues.spoken {ip : Bytes} {port : UInt16} {t : CommandType} {g : List (Sigma CtlCall.Resp)} {c : CtlCall}
    (h : Continues ip port (plainCommand t) g c) : Says t c := by
  have hmem : c ∈ conversation (socketOf g) ip port (plainCommand t) :=
    h.1.subset (List.mem_append_right _ List.mem_cons_self)
  simp only [conversation, List.mem_cons, List.not_mem_nil, or_false] at hmem
  rcases hmem with rfl | rfl | rfl | rfl | rfl | rfl <;> trivial

/-- Nothing else is ever sent. -/
theorem main_speaks (h : main env argv = some p) :
    p.Within (Says (commandGiven (getopt optstring none argv))) fun _ => True := by
  rcases main_cases h with ⟨-, rfl⟩ | ⟨-, config, hcommand, rfl⟩
  · trivial
  · rw [← hcommand]
    have hsays : (sendCommand config).Within (Says (command config)) fun _ => True :=
      (Thread.within_of_history (sendCommand_converses config)).mono (fun c ⟨g, hc⟩ => hc.spoken) fun _ _ => trivial
    exact Prog.within_bind hsays fun _ _ => trivial

end Main

end Ctl

end IOSwitch
