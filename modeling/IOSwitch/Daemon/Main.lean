import IOSwitch.Ctl.Client
import IOSwitch.Daemon.Reclaim
import IOSwitch.Daemon.Survival

/-!
# `Daemon.Main` — `ioswitchd.c`, from the arguments to the exit status

`main` reads its options, creates the server, binds it to a port and runs it; at the end, or when the server could not
be started, it destroys the server. `Program` is all of this, with the threads of the daemon running between
`start_server` and the end of the process. The exit status tells how the program has ended (`exit_status`), and it
has freed what it has allocated.

## Contents
- `main`, `createServer`, `startServer` — the program before `run_server`.
- `Program`, `Program.Step` — the whole program.
- `status_verified`, `status_run` — what `run_server` returns.
- `exit_status`, `finds_daemon_iff`.
-/

namespace IOSwitch

open Lib Server

namespace Ioswitchd

open Getopt Ctl

/-! ## `main`, up to `run_server` -/

/-- `:c:`. -/
def optstring : Bytes := [58, 99, 58]

/-- The loop over the options. On the left is the value that `main` returns from it. -/
def parseOptions (env : Env) (configPath : Bytes) : List Opt → Option (Int ⊕ Bytes)
  | []                    => some (.inr configPath)
  | .unknown _ :: _       => some (.inl 1)
  | .arg opt optarg :: os =>
      if opt = letterC then do
        let configPath ← givenPath env optarg
        parseOptions env configPath os
      else parseOptions env configPath os
  -- `:` has no case, and no option is without an argument
  | .missing _ :: os      => parseOptions env configPath os
  | .flag _ :: os         => parseOptions env configPath os

/-- The calls of `main` before `run_server`. -/
inductive BootCall where
  | loadConfig (path : Bytes)
  | socket
  | setsockopt (fd : Int)
  | bind (fd : Int) (port : UInt16)
  deriving DecidableEq

abbrev BootCall.Resp : BootCall → Type
  | loadConfig _ => Config
  | _            => Int

abbrev bootI : Interface := ⟨BootCall, BootCall.Resp⟩

instance : DecidableEq bootI.Call := inferInstanceAs (DecidableEq BootCall)

/-- A call, as a program. -/
abbrev ask (c : BootCall) : Prog bootI c.Resp := Prog.perform (I := bootI) c

/-- `create_server`. The rest of what it sets up is in `Daemon.init`, and its command table in `Server.commands`. -/
def createServer (configPath : Bytes) : Prog bootI Config := ask (.loadConfig configPath)

/-- `start_server`. -/
def startServer (port : UInt16) : Prog bootI Int := do
  let fd ← ask .socket
  if fd < 0 then return -1
  if (← ask (.setsockopt fd)) ≠ 0 then return -1
  if (← ask (.bind fd port)) < 0 then return -1
  return 0

/-- `server_port`. -/
def serverPort : UInt16 := 16307

/-- Where `main` has got to: it returns from its options, or the server has been created, and could be started or not. -/
inductive Booted where
  | usage (code : Int)
  | failed (config : Config)
  | started (config : Config)

/-- `main` up to `run_server`, for the arguments behind the name of the program. -/
def main (env : Env) (argv : List Bytes) : Option (Prog bootI Booted) := do
  let configPath ← homePath env
  match ← parseOptions env configPath (getopt optstring none argv) with
  | .inl code       => return .ret (.usage code)
  | .inr configPath => return do
      let config ← createServer configPath
      if (← startServer serverPort) < 0 then return .failed config
      return .started config

/-! ## The whole program -/

/-- The program: `main` before `run_server`; `run_server` and then `destroy_server`, among the other threads;
    `destroy_server` of a server that could not be started, with what it has freed; and the end. -/
inductive Program where
  | boot (rest : Prog bootI Booted)
  | serve (p : Process)
  | abandon (left : List Teardown) (freed : List Object)
  | done (code : Int) (freed : List Object)

inductive ProgramEvent where
  | boot (c : BootCall) (r : c.Resp)
  | booted
  | process (e : ProcessEvent)
  | teardown (t : Teardown)
  | finish

namespace Program

/-- The state after an event, if the event is possible. On the stack, `run_server` finds `conn` and `args`. -/
def exec (conn args : Bytes) : Program → ProgramEvent → Option Program
  | .boot rest, .boot c r            => (rest.answer (I := bootI) c r).map .boot
  | .boot (.ret booted), .booted     => match booted with
      | .usage code     => some (.done code [])
      | .failed _       => some (.abandon destroyServer [])
      | .started config => some (.serve (.init config conn args))
  | .serve p, .process e             => (p.exec e).map .serve
  | .abandon (t :: left) freed, .teardown t' =>
      if t = t' then some (.abandon left (freed ++ t.object.toList)) else none
  | .abandon [] freed, .finish       => some (.done (-1) freed)
  | _, _                             => none

def Step (conn args : Bytes) (s : Program) (e : ProgramEvent) (s' : Program) : Prop := s.exec conn args e = some s'

/-- The status with which the process has ended, if it has: that of `main`, or that of an `exit` in a lock thread. -/
def exitStatus : Program → Option Int
  | .done code _ => some code
  | .serve p     =>
      if p.daemon.exited then some 1
      else if p.ended then match p.daemon.main.rest with
        | .ret (.returned code) => some (if code < 0 then -1 else 0)
        | _                     => none
      else none
  | _            => none

/-- What has been freed. -/
def freed : Program → List Object
  | .done _ freed | .abandon _ freed => freed
  | .serve p                         => p.freed
  | .boot _                          => []

end Program

/-! ## Before `run_server` -/

/-- The call has failed. -/
def bootFails : Sigma BootCall.Resp → Bool
  | ⟨.socket, fd⟩      => decide (fd < 0)
  | ⟨.setsockopt _, r⟩ => decide (r ≠ 0)
  | ⟨.bind _ _, r⟩     => decide (r < 0)
  | ⟨.loadConfig _, _⟩ => false

/-- What the calls so far have to do with where `main` has got to. -/
def Boots (os : List Opt) (g : List (Sigma BootCall.Resp)) : Booted → Prop
  | .usage code => code = 1 ∧ Unknown os ∧ g = []
  | .failed _   => g.any bootFails = true
  | .started _  => g.any bootFails = false

/-- The server is bound to one port only. -/
def BindsPort (_ : List (Sigma BootCall.Resp)) : BootCall → Prop
  | .bind _ port => port = serverPort
  | _            => True

theorem parseOptions_code {env : Env} {path : Bytes} {os : List Opt} {code : Int}
    (h : parseOptions env path os = some (.inl code)) : code = 1 ∧ Unknown os := by
  induction os generalizing path with
  | nil => cases h
  | cons o os ih =>
      have hrest : ∀ {path}, parseOptions env path os = some (.inl code) → code = 1 ∧ Unknown (o :: os) := fun h => by
        obtain ⟨hcode, c, hc⟩ := ih h
        exact ⟨hcode, c, List.mem_cons_of_mem o hc⟩
      cases o with
      | unknown c =>
          cases h
          exact ⟨rfl, c, List.mem_cons_self⟩
      | arg c w =>
          rw [parseOptions] at h
          split at h
          · obtain ⟨path', -, h⟩ := Option.bind_eq_some_iff.mp h
            exact hrest h
          · exact hrest h
      | missing c => exact hrest h
      | flag c => exact hrest h

/-- **`start_server`** fails with one of its calls. -/
theorem startServer_spec {g : List (Sigma BootCall.Resp)} (hg : g.any bootFails = false) :
    wp (Thread.history (I := bootI) BindsPort) (startServer serverPort)
      (fun g' r => (r < 0 ↔ g'.any bootFails = true)) g := by
  have hnext : ∀ {g : List (Sigma BootCall.Resp)} {x : Sigma BootCall.Resp}, g.any bootFails = false →
      ((g ++ [x]).any bootFails = true ↔ bootFails x = true) := fun hg => by simp [List.any_append, hg]
  have hneg : (-1 : Int) < 0 := by decide
  refine ⟨trivial, ?_⟩
  rintro fd _ rfl
  show wp _ (if fd < 0 then _ else _) _ _
  split
  · next hfd => exact ⟨fun _ => (hnext hg).mpr (decide_eq_true hfd), fun _ => hneg⟩
  next hfd =>
  have hg₁ := Bool.eq_false_iff.mpr (mt (hnext (x := ⟨.socket, fd⟩) hg).mp (by simpa [bootFails] using hfd))
  refine ⟨trivial, ?_⟩
  rintro r _ rfl
  show wp _ (if r ≠ 0 then _ else _) _ _
  split
  · next hr => exact ⟨fun _ => (hnext hg₁).mpr (decide_eq_true hr), fun _ => hneg⟩
  next hr =>
  have hg₂ := Bool.eq_false_iff.mpr (mt (hnext (x := ⟨.setsockopt fd, r⟩) hg₁).mp (by simpa [bootFails] using hr))
  refine ⟨rfl, ?_⟩
  rintro r _ rfl
  show wp _ (if r < 0 then _ else _) _ _
  split
  · next hr => exact ⟨fun _ => (hnext hg₂).mpr (decide_eq_true hr), fun _ => hneg⟩
  next hr =>
  constructor
  · rintro ⟨⟩
  · intro hfails
    exact absurd (of_decide_eq_true ((hnext hg₂).mp hfails)) hr

/-- **`main` gets to `run_server`** iff no call has failed and no option is unknown. -/
theorem main_boots {env : Env} {argv : List Bytes} {p : Prog bootI Booted} (h : main env argv = some p) :
    wp (Thread.history (I := bootI) BindsPort) p (Boots (getopt optstring none argv)) [] := by
  obtain ⟨path, -, h⟩ := Option.bind_eq_some_iff.mp h
  obtain ⟨parsed, hparse, h⟩ := Option.bind_eq_some_iff.mp h
  cases parsed with
  | inl code =>
      cases h
      obtain ⟨hcode, hunknown⟩ := parseOptions_code hparse
      exact ⟨hcode, hunknown, rfl⟩
  | inr path =>
      cases h
      refine ⟨trivial, ?_⟩
      rintro config _ rfl
      show wp _ (startServer serverPort >>= _) _ _
      refine wp_seq (startServer_spec rfl) ?_
      intro g r hr
      show wp _ (if r < 0 then _ else _) _ _
      split
      · next hneg => exact hr.mp hneg
      · next hneg => exact Bool.eq_false_iff.mpr (mt hr.mpr hneg)

/-! ## What `run_server` returns -/

/-- A call of the accept loop fails. -/
def serverFails (e : Event) : Bool := Daemon.recvFails e || Daemon.listenFails e

/-- Whether a call of the accept loop has failed, and whether a KILL has been dispatched. -/
structure StatusView where
  failed : Bool
  killed : Bool

def statusView (tr : List Event) : StatusView where
  failed := tr.any serverFails
  killed := tr.any fun e => decide (Daemon.commandOf e = some .kill)

/-- Nothing is called after a call has failed. -/
def statusContract : Contract serverI StatusView where
  pre g _       := g.failed = false
  post g c r g' := g' = { g with failed := g.failed || serverFails (.main (.did c r)) }

/-- What `run_server` returns tells which of the two has happened. Nothing has, as long as it goes on. -/
def Status : ServerLoc → StatusView → Prop
  | .returned code, g => (code = 0 ∧ g.failed = false ∧ g.killed = true) ∨ (code = -1 ∧ g.failed = true ∧ g.killed = false)
  | _, g              => g = ⟨false, false⟩

section Status

variable {g : StatusView}

/-- A part of the code whose calls do not fail. -/
theorem wp_status_neutral {α : Type} {P : ServerCall → Prop} {Q : α → Prop} {p : Prog serverI α} (hp : p.Within P Q)
    (hP : ∀ c, P c → ∀ r, serverFails (.main (.did c r)) = false) (hg : g.failed = false) :
    wp statusContract p (fun g' a => g' = g ∧ Q a) g := by
  refine wp_neutral hp fun c hc => ⟨hg, ?_⟩
  rintro r _ rfl
  rw [hP c hc r, Bool.or_false]

theorem forInput_succeeds : ∀ c : ServerCall, c.ForInput → ∀ r, serverFails (.main (.did c r)) = false := by
  intro c hc r
  cases c <;> first | exact hc.elim | rfl

theorem handles_succeeds : ∀ c : ServerCall, c.Handles → ∀ r, serverFails (.main (.did c r)) = false := by
  intro c hc r
  cases c <;> first | exact absurd trivial hc | rfl

theorem acceptConn_status (fd : Int) (conn args : Bytes) :
    wp statusContract (acceptConn fd conn args) (fun g' l => Status l g') ⟨false, false⟩ := by
  unfold acceptConn
  split
  · refine wp_seq (wp_status_neutral (acceptInput_forInput fd conn) forInput_succeeds rfl) ?_
    rintro _ _ ⟨rfl, -⟩
    rfl
  · refine ⟨rfl, ?_⟩
    rintro r _ rfl
    show wp _ (if r.ret < 0 then _ else _) _ _
    by_cases hr : r.ret < 0
    · rw [if_pos hr]
      exact .inr ⟨rfl, by simp [serverFails, Daemon.recvFails, hr], rfl⟩
    · rw [if_neg hr]
      show StatusView.mk _ _ = _
      simp [serverFails, Daemon.recvFails, Daemon.listenFails, hr]
  · rfl

/-- **A block outside the handlers** returns when a call has failed. -/
theorem block_status {l : ServerLoc} (hl : l.handling = false) (hg : Status l g) :
    wp statusContract (runServer l) (fun g' l' => Status l' g') g := by
  cases l with
  | entry conn args =>
      obtain rfl : g = ⟨false, false⟩ := hg
      refine ⟨rfl, ?_⟩
      rintro r _ rfl
      show wp _ (if r < 0 then _ else _) _ _
      by_cases hr : r < 0
      · rw [if_pos hr]
        exact .inr ⟨rfl, by simp [serverFails, Daemon.listenFails, hr], rfl⟩
      · rw [if_neg hr]
        show StatusView.mk _ _ = _
        simp [serverFails, Daemon.recvFails, Daemon.listenFails, hr]
  | loop conn args =>
      obtain rfl : g = ⟨false, false⟩ := hg
      refine ⟨rfl, ?_⟩
      rintro fd _ rfl
      show wp _ (if fd < 0 then _ else _) _ _
      by_cases hfd : fd < 0
      · rw [if_pos hfd]
        exact .inr ⟨rfl, by simp [serverFails, Daemon.listenFails, hfd], rfl⟩
      rw [if_neg hfd]
      have hsame : (false || serverFails (.main (.did .accept fd))) = false := by
        simp [serverFails, Daemon.recvFails, Daemon.listenFails, hfd]
      rw [hsame]
      refine ⟨rfl, ?_⟩
      rintro r _ rfl
      show wp _ (if r.ret < 0 then _ else _) _ _
      by_cases hr : r.ret < 0
      · rw [if_pos hr]
        exact .inr ⟨rfl, by simp [serverFails, Daemon.recvFails, hr], rfl⟩
      · rw [if_neg hr]
        have hsame : (false || serverFails (.main (.did (.recvConn fd) r))) = false := by
          simp [serverFails, Daemon.recvFails, Daemon.listenFails, hr]
        rw [hsame]
        exact acceptConn_status fd _ args
  | handle conn args => cases hl
  | returned code => exact hg

/-- **A handler** makes `run_server` return iff it is that of KILL. -/
theorem handle_status (conn : Bytes) {args : Bytes} (hg : g.failed = false)
    (hkill : g.killed = decide ((CommandArgs.ofMem args).type = .kill)) :
    wp statusContract (runServer (.handle conn args)) (fun g' l' => Status l' g') g := by
  by_cases hk : (CommandArgs.ofMem args).type = .kill
  · rw [decide_eq_true hk] at hkill
    have hcommands : commands (.ofMem args) = Handler.kill (.ofMem args) := by
      unfold commands
      rw [hk]
    show wp _ (commands (.ofMem args) >>= _) _ _
    rw [hcommands, Handler.kill, Prog.bind_assoc]
    refine wp_seq (wp_status_neutral (stop_handles _) handles_succeeds hg) ?_
    rintro _ _ ⟨rfl, -⟩
    exact .inl ⟨rfl, hg, hkill⟩
  · rw [decide_eq_false hk] at hkill
    refine wp_seq (wp_commands _ hg fun c hc => ⟨hg, ?_⟩) ?_
    · rintro r _ rfl
      rw [handles_succeeds c hc r, Bool.or_false]
    · rintro g' result ⟨hsame, hresult⟩
      show Status (if result = 1 then _ else _) _
      rw [if_neg fun h => hk (hresult h), hsame]
      obtain ⟨failed, killed⟩ := g
      cases hg
      cases hkill
      rfl

end Status

theorem statusView_did {tr : List Event} {c : ServerCall} {r : c.Resp} :
    statusContract.post (statusView tr) c r (statusView (tr ++ [.main (.did c r)])) := by
  simp [statusContract, statusView, Daemon.commandOf]

theorem statusView_frame {tr : List Event} {e : Event} (he : ∀ a, e ≠ .main a) :
    statusView (tr ++ [e]) = statusView tr := by
  cases e with
  | main a => exact absurd rfl (he a)
  | _ => simp [statusView, serverFails, Daemon.recvFails, Daemon.listenFails, Daemon.commandOf]

/-- **Step lemma**, for the main thread of the daemon. -/
theorem status_step {s s' : Daemon} {e : Event} {tr : List Event}
    (hinv : s.main.Ok statusContract Status (statusView tr)) (h : Daemon.Step s e s') :
    s'.main.Ok statusContract Status (statusView (tr ++ [e])) := by
  apply Daemon.mainOk_step h hinv
  · rintro l rfl hl
    cases l with
    | handle conn args =>
        have hl : statusView tr = ⟨false, false⟩ := hl
        have hview : statusView (tr ++ [.main (.jump (.handle conn args))]) =
            ⟨false, decide ((CommandArgs.ofMem args).type = .kill)⟩ := by
          obtain ⟨hfailed, hkilled⟩ := StatusView.mk.inj hl
          simp only [statusView, List.any_append, hfailed, hkilled]
          simp [serverFails, Daemon.recvFails, Daemon.listenFails, Daemon.commandOf]
        rw [hview]
        exact handle_status conn rfl rfl
    | _ =>
        have hsame : ∀ l : ServerLoc, l.handling = false → statusView (tr ++ [.main (.jump l)]) = statusView tr := by
          intro l hl
          cases l with
          | handle conn args => cases hl
          | _ => simp [statusView, serverFails, Daemon.recvFails, Daemon.listenFails, Daemon.commandOf]
        rw [hsame _ rfl]
        exact block_status rfl hl
  · rintro c r rfl -
    exact statusView_did
  · exact statusView_frame

/-! ## Runs of the program -/

/-- The calls made before `run_server`. -/
def bootCalls (tr : List ProgramEvent) : List (Sigma BootCall.Resp) := tr.filterMap fun e => match e with
  | .boot c r => some ⟨c, r⟩
  | _         => none

/-- The events of the daemon. -/
def daemonEvents (tr : List ProgramEvent) : List Event := tr.filterMap fun e => match e with
  | .process (.daemon e) => some e
  | _                    => none

/-- A call of `start_server` or of the accept loop has failed. -/
def Failed (tr : List ProgramEvent) : Prop :=
  (bootCalls tr).any bootFails = true ∨ (daemonEvents tr).any serverFails = true

/-- What `destroy_server` frees. -/
def objects : List Object := destroyServer.filterMap Teardown.object

/-- While the server runs, and when it has been destroyed. -/
structure Serving (tr : List ProgramEvent) (p : Process) : Prop where
  booted   : (bootCalls tr).any bootFails = false
  main     : p.daemon.main.Ok statusContract Status (statusView (daemonEvents tr))
  survival : Daemon.SurvivalInv (daemonEvents tr) p.daemon
  reclaim  : Process.ReclaimInv p

/-- What holds of the program after the events `tr`. -/
def ProgramInv (os : List Opt) (tr : List ProgramEvent) : Program → Prop
  | .boot rest          =>
      wp (Thread.history (I := bootI) BindsPort) rest (Boots os) (bootCalls tr) ∧ daemonEvents tr = []
  | .serve p            => Serving tr p
  | .abandon left freed =>
      (bootCalls tr).any bootFails = true ∧ daemonEvents tr = [] ∧
        freed ++ left.filterMap Teardown.object = objects
  | .done code freed    =>
      daemonEvents tr = [] ∧
        (code = 1 ∧ Unknown os ∨ code = -1 ∧ (bootCalls tr).any bootFails = true ∧ freed = objects)

section Inv

variable {os : List Opt} {tr : List ProgramEvent} {s s' : Program} {conn args : Bytes}

theorem bootCalls_snoc (tr : List ProgramEvent) (e : ProgramEvent) :
    bootCalls (tr ++ [e]) = bootCalls tr ++ bootCalls [e] := List.filterMap_append

theorem daemonEvents_snoc (tr : List ProgramEvent) (e : ProgramEvent) :
    daemonEvents (tr ++ [e]) = daemonEvents tr ++ daemonEvents [e] := List.filterMap_append

/-- `destroy_server` leaves the threads of the daemon alone. -/
theorem survivalInv_tearDown {p : Process} {evs : List Event} (h : Daemon.SurvivalInv evs p.daemon) (t : Teardown) :
    Daemon.SurvivalInv evs (p.tearDown t).daemon := by
  cases t with
  | closeSocket => exact h
  | free o => cases o <;> exact ⟨h.main, h.lockers, h.fresh, h.exited⟩

/-- **Step lemma**, for the process. -/
theorem serving_process {p p' : Process} {e : ProcessEvent} (hinv : Serving tr p) (h : Process.Step p e p') :
    Serving (tr ++ [.process e]) p' := by
  have hbooted : (bootCalls (tr ++ [.process e])).any bootFails = false := by
    rw [bootCalls_snoc]
    exact (congrArg (List.any · bootFails) (List.append_nil _)).trans hinv.booted
  have hreclaim := Process.reclaimInv_step hinv.reclaim h
  cases e with
  | daemon ev =>
      obtain ⟨d, hd, rfl⟩ := Process.step_daemon h
      have hevents : daemonEvents (tr ++ [.process (.daemon ev)]) = daemonEvents tr ++ [ev] := daemonEvents_snoc _ _
      exact ⟨hbooted, by rw [hevents]; exact status_step hinv.main hd,
        by rw [hevents]; exact Daemon.survivalInv_step hinv.survival hd, hreclaim⟩
  | teardown t =>
      have hevents : daemonEvents (tr ++ [.process (.teardown t)]) = daemonEvents tr :=
        (daemonEvents_snoc _ _).trans (List.append_nil _)
      obtain ⟨-, rfl⟩ := Process.step_teardown h
      refine ⟨hbooted, ?_, ?_, hreclaim⟩
      · show (p.tearDown t).daemon.main.Ok _ _ _
        rw [hevents, (Process.tearDown_daemon t).1]
        exact hinv.main
      · rw [hevents]
        exact survivalInv_tearDown hinv.survival t
  | finish =>
      have hevents : daemonEvents (tr ++ [.process .finish]) = daemonEvents tr :=
        (daemonEvents_snoc _ _).trans (List.append_nil _)
      obtain rfl := Process.step_finish h
      exact ⟨hbooted, by rw [hevents]; exact hinv.main, by rw [hevents]; exact hinv.survival, hreclaim⟩

/-- **Step lemma.** -/
theorem programInv_step {e : ProgramEvent} (hinv : ProgramInv os tr s) (h : Program.Step conn args s e s') :
    ProgramInv os (tr ++ [e]) s' := by
  have hquiet : bootCalls [e] = [] → bootCalls (tr ++ [e]) = bootCalls tr := fun he => by
    rw [bootCalls_snoc, he, List.append_nil]
  have hsilent : daemonEvents [e] = [] → daemonEvents (tr ++ [e]) = daemonEvents tr := fun he => by
    rw [daemonEvents_snoc, he, List.append_nil]
  cases s with
  | boot rest =>
      obtain ⟨hrest, hnone⟩ := hinv
      cases e with
      | boot c r =>
          obtain ⟨rest', hanswer, rfl⟩ := Option.map_eq_some_iff.mp h
          obtain ⟨k, rfl, rfl⟩ := Prog.answer_eq hanswer
          exact ⟨hrest.2 r _ (bootCalls_snoc tr _), (hsilent rfl).trans hnone⟩
      | booted =>
          cases rest with
          | call c k => cases h
          | ret b =>
              have hb : Boots os (bootCalls tr) b := hrest
              cases b with
              | usage code =>
                  cases h
                  exact ⟨(hsilent rfl).trans hnone, .inl ⟨hb.1, hb.2.1⟩⟩
              | failed config =>
                  cases h
                  exact ⟨by rw [hquiet rfl]; exact hb, (hsilent rfl).trans hnone, rfl⟩
              | started config =>
                  cases h
                  have hevents : daemonEvents (tr ++ [.booted]) = [] := (hsilent rfl).trans hnone
                  exact ⟨by rw [hquiet rfl]; exact hb, by rw [hevents]; exact block_status (l := .entry conn args) rfl rfl,
                    by rw [hevents]; exact Daemon.survivalInv_init config conn args,
                    Process.reclaimInv_init config conn args⟩
      | process e => cases rest <;> cases h
      | teardown t => cases rest <;> cases h
      | finish => cases rest <;> cases h
  | serve p =>
      cases e with
      | process e =>
          obtain ⟨p', hp, rfl⟩ := Option.map_eq_some_iff.mp h
          exact serving_process hinv hp
      | _ => cases h
  | abandon left freed =>
      obtain ⟨hfailed, hnone, hall⟩ := hinv
      cases e with
      | teardown t =>
          cases left with
          | nil => cases h
          | cons u left =>
              simp only [Program.Step, Program.exec] at h
              split at h
              · cases h
                refine ⟨by rw [hquiet rfl]; exact hfailed, (hsilent rfl).trans hnone, ?_⟩
                rw [← hall, List.append_assoc]
                cases u <;> rfl
              · cases h
      | finish =>
          cases left with
          | nil =>
              cases h
              refine ⟨(hsilent rfl).trans hnone, .inr ⟨rfl, by rw [hquiet rfl]; exact hfailed, ?_⟩⟩
              exact (List.append_nil _).symm.trans hall
          | cons u left => cases h
      | boot c r => cases left <;> cases h
      | booted => cases left <;> cases h
      | process e => cases left <;> cases h
  | done code freed => cases e <;> cases h

end Inv

theorem programInv_run {env : Env} {argv : List Bytes} {prog : Prog bootI Booted} {conn args : Bytes}
    {tr : List ProgramEvent} {s : Program} (hmain : main env argv = some prog)
    (h : Run (Program.Step conn args) (.boot prog) tr s) : ProgramInv (getopt optstring none argv) tr s :=
  h.history (I := ProgramInv (getopt optstring none argv)) ⟨main_boots hmain, rfl⟩ fun _ _ _ _ => programInv_step

theorem killed_iff {evs : List Event} : (statusView evs).killed = true ↔ .kill ∈ Daemon.commandsOf evs := by
  unfold statusView Daemon.commandsOf
  simp only [List.any_eq_true, decide_eq_true_eq, List.mem_filterMap]

/-- **The exit status tells how the program has ended.** In every run of `ioswitchd`, whatever its arguments and
    whatever its threads do: it exits with 0 after a KILL, and then no call of `start_server` or of the accept loop has
    failed; with -1 after such a call has failed, and then no KILL has been dispatched; and with 1 for an unknown option,
    or out of a lock thread that was refused the display, the pointer, or the keyboard 100 times. With 0 and -1 every
    object that `create_server` has allocated has been freed, and once. -/
theorem exit_status {env : Env} {argv : List Bytes} {prog : Prog bootI Booted} {conn args : Bytes}
    {tr : List ProgramEvent} {s : Program} {code : Int} (hmain : main env argv = some prog)
    (h : Run (Program.Step conn args) (.boot prog) tr s) (hs : s.exitStatus = some code) :
    (code = 0 ∧ .kill ∈ Daemon.commandsOf (daemonEvents tr) ∧ ¬ Failed tr ∨
      code = -1 ∧ Failed tr ∧ .kill ∉ Daemon.commandsOf (daemonEvents tr) ∨
      code = 1 ∧ (Unknown (getopt optstring none argv) ∨ ∃ j, (Daemon.tallyOf j (daemonEvents tr)).Doomed)) ∧
    (code ≠ 1 → s.freed.Nodup ∧ ∀ o, o ∈ s.freed) := by
  have hobjects : objects.Nodup ∧ ∀ o, o ∈ objects := by
    refine ⟨by decide, fun o => ?_⟩
    cases o <;> decide
  have hinv := programInv_run hmain h
  cases s with
  | boot rest => cases hs
  | abandon left freed => cases hs
  | done code' freed =>
      cases hs
      obtain ⟨hnone, hover⟩ := hinv
      rcases hover with ⟨rfl, hunknown⟩ | ⟨rfl, hfailed, rfl⟩
      · exact ⟨.inr (.inr ⟨rfl, .inl hunknown⟩), fun hne => absurd rfl hne⟩
      · refine ⟨.inr (.inl ⟨rfl, .inl hfailed, ?_⟩), fun _ => hobjects⟩
        rw [hnone]
        exact List.not_mem_nil
  | serve p =>
      simp only [Program.exitStatus] at hs
      split at hs
      · next hx =>
        cases hs
        exact ⟨.inr (.inr ⟨rfl, .inr (hinv.survival.exited hx)⟩), fun hne => absurd rfl hne⟩
      split at hs
      · next hended =>
        split at hs
        · next code' hr =>
          have hfreed : p.freed = objects := by
            have horder := hinv.reclaim.order
            rwa [hinv.reclaim.ended hended, List.filterMap_nil, List.append_nil] at horder
          have hstatus := hinv.main.of_ret hr
          have hkilled : (statusView (daemonEvents tr)).killed = true ↔ _ := killed_iff
          refine ⟨?_, fun _ => by rw [Program.freed, hfreed]; exact hobjects⟩
          rcases hstatus with ⟨rfl, hfailed, hkill⟩ | ⟨rfl, hfailed, hkill⟩
          · cases hs
            refine .inl ⟨rfl, hkilled.mp hkill, ?_⟩
            rintro (hboot | hserver)
            · exact absurd (hinv.booted.symm.trans hboot) Bool.false_ne_true
            · exact absurd (hfailed.symm.trans hserver) Bool.false_ne_true
          · cases hs
            exact .inr (.inl ⟨rfl, .inr hfailed, fun hk => Bool.false_ne_true (hkill.symm.trans (hkilled.mpr hk))⟩)
        · cases hs
      · cases hs

/-- The server is started, gets a KILL and is destroyed. -/
def killedProgram : List ProgramEvent :=
  [.boot (.loadConfig (slash :: configFile)) Daemon.emptyConfig, .boot .socket (3 : Int), .boot (.setsockopt 3) (0 : Int),
    .boot (.bind 3 serverPort) (0 : Int), .booted] ++
  ((Daemon.boot ++ Daemon.killOrder).map ProcessEvent.daemon ++ destroyServer.map ProcessEvent.teardown ++
    [ProcessEvent.finish]).map .process

theorem run_killedProgram : ∃ prog s, main portEnv [] = some prog ∧
    Run (Program.Step [] []) (.boot prog) killedProgram s ∧ s.exitStatus = some 0 := by
  have hexec : ((main portEnv []).bind fun prog => (execs (Program.exec [] []) (.boot prog) killedProgram).map
      Program.exitStatus) = some (some 0) := by
    decide +kernel
  obtain ⟨prog, hprog, hexec⟩ := Option.bind_eq_some_iff.mp hexec
  obtain ⟨s, hrun, hstatus⟩ := Run.exists_of_execs hexec
  exact ⟨prog, s, hprog, hrun, hstatus⟩

theorem exit_status_kill : ∃ prog s, main portEnv [] = some prog ∧ Run (Program.Step [] []) (.boot prog) killedProgram s ∧
    s.exitStatus = some 0 ∧ .kill ∈ Daemon.commandsOf (daemonEvents killedProgram) ∧ ∀ o, o ∈ s.freed := by
  obtain ⟨prog, s, hprog, hrun, hstatus⟩ := run_killedProgram
  obtain ⟨hcode, hfreed⟩ := exit_status hprog hrun hstatus
  have hkill : .kill ∈ Daemon.commandsOf (daemonEvents killedProgram) := by
    rcases hcode with ⟨-, hkill, -⟩ | ⟨hcode, -⟩ | ⟨hcode, -⟩
    · exact hkill
    · exact absurd hcode (by decide)
    · exact absurd hcode (by decide)
  exact ⟨prog, s, hprog, hrun, hstatus, hkill, (hfreed (by decide)).2⟩

/-! ## Where the daemon is found -/

/-- The program dials no other port. -/
def DialsPort (port : UInt16) : CtlCall → Prop
  | .connect _ _ port' => port' = port
  | _                  => True

theorem sendCommand_port_iff {config : Block CtlConfig.size} {port : UInt16} :
    (sendCommand config).Within (DialsPort port) (fun _ => True) ↔ CtlConfig.daemonPort config = port := by
  unfold sendCommand
  simp only [Prog.perform_eq, Prog.call_bind, Prog.ret_bind, Prog.pure_eq, Prog.within_call, Prog.within_ite,
    Prog.within_ret, implies_true, true_and, and_true]
  constructor
  · intro h
    have hzero : ¬ (0 : Int) < 0 := by decide
    have hone : ¬ (1 : Int) ≤ 0 := by decide
    -- there is a socket, and the address can be read
    obtain ⟨-, h⟩ := h.2 (0 : Int) hzero
    exact (h (1 : Int) hone).1
  · intro hport
    refine ⟨trivial, fun _ _ => ⟨trivial, fun _ _ => ⟨hport, fun _ _ => ?_⟩⟩⟩
    exact ⟨trivial, fun _ _ => ⟨trivial, fun _ _ => trivial⟩⟩

/-- What `ioswitchctl` has to be told: the port in its file, or else that of the last `-d`. -/
def Told (gs : List Given) : Option Bytes → Prop
  | some w => Config.Decimal w 16307
  | none   => ∃ w, Given.last letterD gs = some w ∧ portOf w = serverPort

theorem told_iff {gs : List Given} (ip : Option Bytes) {number : Option Bytes} (hnumber : ∀ w ∈ number, IsPort w) :
    ((fileLayer ip number).above (optionLayer gs)).onto builtin .port = serverPort ↔ Told gs number := by
  rw [Layer.onto_apply, Layer.above_apply]
  cases number with
  | some w =>
      obtain ⟨n, hdec, hlo, hhi⟩ := hnumber w rfl
      have hn := portOf_decimal hdec hlo hhi
      constructor
      · intro hport
        have hport : portOf w = serverPort := hport
        rw [hport] at hn
        obtain rfl : n = 16307 := hn.symm
        exact hdec
      · intro htold
        have hsame := portOf_decimal htold (by decide) (by decide)
        apply UInt16.toNat_inj.mp
        exact Int.natCast_inj.mp hsame
  | none =>
      show ((Given.last letterD gs).map portOf).getD 8080 = serverPort ↔ ∃ w, _ ∧ _
      cases Given.last letterD gs with
      | none =>
          have hne : ¬ (8080 : UInt16) = serverPort := by decide
          exact ⟨fun h => absurd h hne, by rintro ⟨w, hw, -⟩; cases hw⟩
      | some w => exact ⟨fun h => ⟨w, rfl, h⟩, by rintro ⟨w', hw, h⟩; cases hw; exact h⟩

/-- Every `bind` of the program is to the one port. -/
theorem bound_port {env : Env} {argv : List Bytes} {prog : Prog bootI Booted} {conn args : Bytes}
    {tr : List ProgramEvent} {s : Program} (hmain : main env argv = some prog)
    (h : Run (Program.Step conn args) (.boot prog) tr s) {fd : Int} {port : UInt16} {r : Int}
    (hbind : .boot (.bind fd port) r ∈ tr) : port = serverPort := by
  have hall : ProgramInv (getopt optstring none argv) tr s ∧
      ∀ c r, ProgramEvent.boot c r ∈ tr → BindsPort [] c := by
    refine h.history (I := fun tr s => ProgramInv (getopt optstring none argv) tr s ∧
      ∀ c r, ProgramEvent.boot c r ∈ tr → BindsPort [] c) ⟨⟨main_boots hmain, rfl⟩, by rintro _ _ ⟨⟩⟩ ?_
    rintro tr s e s' ⟨hinv, hbefore⟩ hstep
    refine ⟨programInv_step hinv hstep, fun c r hmem => ?_⟩
    rcases List.mem_append.mp hmem with hmem | hmem
    · exact hbefore c r hmem
    · obtain rfl := List.mem_singleton.mp hmem
      cases s with
      | boot rest =>
          obtain ⟨rest', hanswer, -⟩ := Option.map_eq_some_iff.mp hstep
          obtain ⟨k, rfl, -⟩ := Prog.answer_eq hanswer
          exact hinv.1.1
      | abandon left freed => cases left <;> cases hstep
      | _ => cases hstep
  exact hall.2 _ _ hbind

end Ioswitchd

end IOSwitch
