import IOSwitch.Config.First
import IOSwitch.Config.Ports
import IOSwitch.Ctl.Main
import IOSwitch.Lib.Layers
import Mathlib.Logic.Function.Basic

/-!
# `Ctl.Precedence` — options, file and built-in settings

Each of the three sources is a layer of settings. `main` starts from the built-in ones, lays the options on them and then
the file (`main_settings`), so that the file goes before the options. That the options go first is true iff the two give
no setting different values (`options_first_iff`).

## Contents
- `Setting`, `settingsIn`, `optionLayer`, `fileLayer` — the sources.
- `Sets` — what a part of the option loop does to the locals of `main`; `parseOptions_sets`.
- `parseTokens_settings` — what `parse_config` does to the settings.
- `Sends`, `sendCommand_sends_iff` — what is read off the calls of `send_command`.
-/

namespace IOSwitch

open Lib Tokenizer Config

namespace Ctl

open CtlConfig Getopt

/-! ## The settings and their sources -/

/-- What `send_command` takes from the config. -/
inductive Setting where
  | command | ip | port
  deriving DecidableEq

abbrev Setting.Value : Setting → Type
  | command => CommandType
  | ip      => Bytes
  | port    => UInt16

def settingsIn (config : Block CtlConfig.size) : (k : Setting) → k.Value
  | .command => command config
  | .ip      => daemonIp config
  | .port    => daemonPort config

def builtin : (k : Setting) → k.Value
  | .command => .none
  | .ip      => localhost
  | .port    => 8080

/-- The `uint16_t` that `atoi(w)` is assigned to. -/
def portOf (w : Bytes) : UInt16 := UInt16.ofNat (atoi w).toNat

/-- The arguments of the last `-t`, `-i` and `-d`. -/
def optionLayer (gs : List Given) : Layer Setting.Value
  | .command => (Given.last letterT gs).map strToCommand
  | .ip      => Given.last letterI gs
  | .port    => (Given.last letterD gs).map portOf

/-- The first `daemon_ip` and `daemon_port` of the file. -/
def fileLayer (ip port : Option Bytes) : Layer Setting.Value
  | .command => none
  | .ip      => ip
  | .port    => port.map portOf

/-- A port in decimal digits. -/
def IsPort (w : Bytes) : Prop := ∃ n, Decimal w n ∧ 1 ≤ n ∧ n ≤ 65535

theorem portOf_decimal {w : Bytes} {n : Int} (hw : Decimal w n) (hlo : 1 ≤ n) (hhi : n ≤ 65535) :
    ((portOf w).toNat : Int) = n := by
  have hint : IsInt n := ⟨by omega, by omega⟩
  rw [portOf, atoi_decimal hw hint, low_ofInt]
  omega

/-- A port is not 0. -/
theorem IsPort.atoi_ne {w : Bytes} (h : IsPort w) : atoi w ≠ 0 := by
  obtain ⟨n, hw, hlo, hhi⟩ := h
  intro hzero
  have hport := portOf_decimal hw hlo hhi
  rw [portOf, hzero] at hport
  have hnil : ((UInt16.ofNat (0 : BitVec 32).toNat).toNat : Int) = 0 := rfl
  omega

theorem settingsIn_initial : settingsIn CtlConfig.initial = builtin := by
  funext k
  cases k <;> decide

/-! ## Writes -/

section Writes

variable {config config' : Block CtlConfig.size}

theorem strToCommand_ofCode (w : Bytes) : CommandType.ofCode (ofLe (toLe 4 (strToCommand w).code)) = strToCommand w := by
  unfold strToCommand
  repeat' split
  all_goals rfl

theorem store_command {w : Bytes} (h : config.store 0 (toLe 4 (strToCommand w).code) = some config') :
    settingsIn config' = Function.update (settingsIn config) .command (strToCommand w) := by
  have hlen : (toLe 4 (strToCommand w).code).length = 4 := toLe_length 4 _
  have hbytes := Block.drop_store h
  rw [List.drop_zero] at hbytes
  funext k
  cases k with
  | command =>
      rw [Function.update_self, settingsIn, command, hbytes, List.take_left' hlen]
      exact strToCommand_ofCode w
  | ip => exact Block.str_store_of_le h (by rw [hlen]; decide)
  | port => exact Block.u16_store_of_disjoint h (by decide) (.inr (by rw [hlen]; decide))

theorem store_ip {w : Bytes} (hw : NulFree w) (h : config.store daemonIpAt (w ++ [0]) = some config') :
    settingsIn config' = Function.update (settingsIn config) .ip w := by
  funext k
  cases k with
  | command => exact congrArg (fun s => CommandType.ofCode (ofLe s)) (Block.take_store h (by decide))
  | ip =>
      rw [Function.update_self]
      exact Block.str_store h hw
  | port => exact Block.u16_store_of_disjoint h (by decide) (.inl (by decide))

/-- An address has room for its NUL. -/
theorem exists_store_ip {w : Bytes} (hlen : w.length < 16) (config : Block CtlConfig.size) :
    ∃ config', config.store daemonIpAt (w ++ [0]) = some config' := by
  apply Block.exists_store
  rw [List.length_append, List.length_singleton, daemonIpAt, CtlConfig.size]
  omega

theorem store_port {w : Bytes} (h : config.store daemonPortAt (toLe 2 (atoi w).toNat) = some config') :
    settingsIn config' = Function.update (settingsIn config) .port (portOf w) := by
  funext k
  cases k with
  | command => exact congrArg (fun s => CommandType.ofCode (ofLe s)) (Block.take_store h (by decide))
  | ip => exact Block.str_store_of_le h (by rw [toLe_length]; decide)
  | port =>
      rw [Function.update_self]
      exact Block.u16_store h

/-- `source_port` is none of the settings. -/
theorem store_sourcePort {x : Nat} (h : config.store sourcePortAt (toLe 2 x) = some config') :
    settingsIn config' = settingsIn config := by
  funext k
  cases k with
  | command => exact congrArg (fun s => CommandType.ofCode (ofLe s)) (Block.take_store h (by decide))
  | ip => exact Block.str_store_of_le h (by rw [toLe_length]; decide)
  | port => exact Block.u16_store_of_disjoint h (by decide) (.inr (by rw [toLe_length]; decide))

end Writes

/-! ## The options -/

/-- `-t`, `-i`, `-d`, `-p`, `-l` and `-c`. -/
def otherLetters : List UInt8 := [letterT, letterI, letterD, 112, 108, letterC]

/-- An option other than `-n`, as it can be given: an argument is a string, and has room where it is copied to. -/
structure Proper (env : Env) (g : Given) : Prop where
  letter : g.letter ∈ otherLetters
  joined : g.joined = true → g.value ≠ []
  string : NulFree g.value
  ip     : g.letter = letterI → g.value.length < 16
  path   : g.letter = letterC → (givenPath env g.value).isSome

theorem proper_iff {env : Env} {g : Given} : Proper env g ↔
    g.letter ∈ otherLetters ∧ (g.joined = true → g.value ≠ []) ∧ 0 ∉ g.value ∧
      (g.letter = letterI → g.value.length < 16) ∧ (g.letter = letterC → (givenPath env g.value).isSome) := by
  have hstring : NulFree g.value ↔ 0 ∉ g.value :=
    ⟨fun h hzero => h 0 hzero rfl, fun h b hb hzero => h (hzero ▸ hb)⟩
  rw [← hstring]
  exact ⟨fun ⟨hletter, hjoined, hstring, hip, hpath⟩ => ⟨hletter, hjoined, hstring, hip, hpath⟩,
    fun ⟨hletter, hjoined, hstring, hip, hpath⟩ => ⟨hletter, hjoined, hstring, hip, hpath⟩⟩

instance (env : Env) (g : Given) : Decidable (Proper env g) := decidable_of_iff _ proper_iff.symm

theorem Proper.ok {env : Env} {g : Given} (h : Proper env g) : g.Ok optstring := by
  have hall : otherLetters.all (fun c => takes optstring c = some true ∧ c ≠ dash) = true := by decide
  obtain ⟨htakes, hne⟩ := of_decide_eq_true (List.all_eq_true.mp hall g.letter h.letter)
  exact ⟨htakes, hne, h.joined⟩

/-- The path of the last `-c`, or else `p`. -/
def pathFrom (env : Env) (p : Option Bytes) (gs : List Given) : Option Bytes :=
  match Given.last letterC gs with
  | none   => p
  | some w => givenPath env w

/-- The options lead the locals of `main` from `s` to `s'`. -/
structure Sets (env : Env) (gs : List Given) (s s' : Locals) : Prop where
  settings : settingsIn s'.config = (optionLayer gs).onto (settingsIn s.config)
  path     : some s'.configPath = pathFrom env (some s.configPath) gs
  parse    : s'.doParseConfig = s.doParseConfig

section Options

variable {env : Env}

theorem optionLayer_cons (g : Given) (gs : List Given) :
    optionLayer (g :: gs) = (optionLayer gs).above (optionLayer [g]) := by
  funext k
  rw [Layer.above_apply]
  cases k with
  | command => rw [optionLayer, Given.last_cons, Option.map_or]; rfl
  | ip => exact Given.last_cons letterI g gs
  | port => rw [optionLayer, Given.last_cons, Option.map_or]; rfl

theorem pathFrom_cons (p : Option Bytes) (g : Given) (gs : List Given) :
    pathFrom env p (g :: gs) = pathFrom env (pathFrom env p [g]) gs := by
  unfold pathFrom
  rw [Given.last_cons]
  cases Given.last letterC gs <;> rfl

theorem Sets.nil (s : Locals) : Sets env [] s s where
  settings := by
    funext k
    cases k <;> rfl
  path     := rfl
  parse    := rfl

theorem Sets.cons {g : Given} {gs : List Given} {s s' s'' : Locals} (h : Sets env [g] s s') (h' : Sets env gs s' s'') :
    Sets env (g :: gs) s s'' where
  settings := by rw [h'.settings, h.settings, optionLayer_cons g gs, Layer.above_onto]
  path     := by rw [h'.path, h.path, ← pathFrom_cons]
  parse    := h'.parse.trans h.parse

/-- One option. -/
theorem setOption_sets (s : Locals) {g : Given} (hg : Proper env g) :
    ∃ s', setOption env s g.letter g.value = some s' ∧ Sets env [g] s s' := by
  obtain ⟨c, w, joined⟩ := g
  obtain ⟨hletter, -, hstring, hip, hpath⟩ := hg
  simp only [otherLetters, List.mem_cons, List.not_mem_nil, or_false] at hletter
  rcases hletter with rfl | rfl | rfl | rfl | rfl | rfl
  · -- `-t`
    obtain ⟨config, hstore⟩ := Block.exists_store (n := CtlConfig.size) (o := 0)
      (s := toLe 4 (strToCommand w).code) (by rw [toLe_length]; decide) s.config
    refine ⟨{ s with config }, ?_, ?_, rfl, rfl⟩
    · simp [setOption, hstore, letterT, letterD]
    · rw [store_command hstore]
      funext k
      cases k <;> rfl
  · -- `-i`
    obtain ⟨config, hstore⟩ := exists_store_ip (hip rfl) s.config
    refine ⟨{ s with config }, ?_, ?_, rfl, rfl⟩
    · simp [setOption, hstore, letterT, letterD, letterI]
    · rw [store_ip hstring hstore]
      funext k
      cases k <;> rfl
  · -- `-d`
    obtain ⟨config, hstore⟩ := Block.exists_store (n := CtlConfig.size) (o := daemonPortAt)
      (s := toLe 2 (atoi w).toNat) (by rw [toLe_length]; decide) s.config
    refine ⟨{ s with config }, ?_, ?_, rfl, rfl⟩
    · simp [setOption, hstore]
    · rw [store_port hstore]
      funext k
      cases k <;> rfl
  · -- `-p`
    refine ⟨s, rfl, ?_, rfl, rfl⟩
    funext k
    cases k <;> rfl
  · -- `-l`
    refine ⟨s, rfl, ?_, rfl, rfl⟩
    funext k
    cases k <;> rfl
  · -- `-c`
    obtain ⟨configPath, hgiven⟩ := Option.isSome_iff_exists.mp (hpath rfl)
    refine ⟨{ s with configPath }, ?_, ?_, hgiven.symm, rfl⟩
    · simp [setOption, hgiven, letterT, letterD, letterI, letterC, letterN]
    · funext k
      cases k <;> rfl

/-- **The loop over the options.** -/
theorem parseOptions_sets (s : Locals) {gs : List Given} (hgs : ∀ g ∈ gs, Proper env g) :
    ∃ s', parseOptions env s (gs.map Given.opt) = some (.inr s') ∧ Sets env gs s s' := by
  induction gs generalizing s with
  | nil => exact ⟨s, rfl, .nil s⟩
  | cons g gs ih =>
      obtain ⟨s₁, hset, hsets⟩ := setOption_sets s (hgs g List.mem_cons_self)
      obtain ⟨s₂, hrest, hrests⟩ := ih s₁ fun g' hg' => hgs g' (List.mem_cons_of_mem _ hg')
      refine ⟨s₂, ?_, hsets.cons hrests⟩
      rw [List.map_cons, Given.opt, parseOptions, hset]
      exact hrest

end Options

/-! ## The file -/

section File

variable {t : Tokenizer} {config config' : Block CtlConfig.size} {ip port : Option Bytes}

theorem storeDaemonIp_settings (hip : ∀ w ∈ ip, NulFree w ∧ w.length < 16) (config : Block CtlConfig.size) :
    ∃ config', storeDaemonIp config ip = some config' ∧
      settingsIn config' = (fileLayer ip none).onto (settingsIn config) := by
  cases ip with
  | none =>
      refine ⟨config, rfl, ?_⟩
      funext k
      cases k <;> rfl
  | some w =>
      obtain ⟨hstring, hlen⟩ := hip w rfl
      obtain ⟨config', hstore⟩ := exists_store_ip hlen config
      refine ⟨config', hstore, ?_⟩
      rw [store_ip hstring hstore]
      funext k
      cases k <;> rfl

theorem storeDaemonPort_settings (hport : ∀ w ∈ port, IsPort w)
    (h : storePort daemonPortAt config port = some config') :
    settingsIn config' = (fileLayer none port).onto (settingsIn config) := by
  cases port with
  | none =>
      cases h
      funext k
      cases k <;> rfl
  | some w =>
      have hstore : config.store daemonPortAt (toLe 2 (atoi w).toNat) = some config' :=
        (if_pos (hport w rfl).atoi_ne).symm.trans h
      rw [store_port hstore]
      funext k
      cases k <;> rfl

/-- `source_port` is stored without a look at the others. -/
theorem storeSourcePort_settings (h : storePort sourcePortAt config port = some config') :
    settingsIn config' = settingsIn config := by
  cases port with
  | none =>
      cases h
      rfl
  | some w =>
      rw [storePort, takePort] at h
      split at h
      · exact store_sourcePort h
      · cases h
        rfl

theorem fileLayer_above (ip port : Option Bytes) :
    (fileLayer none port).above (fileLayer ip none) = fileLayer ip port := by
  funext k
  cases k with
  | command => rfl
  | ip => rfl
  | port => exact Option.or_none

/-- **`parse_config`** lays the file on the settings. -/
theorem parseTokens_settings (hread : ∀ tok ∈ t.tokens, nul ∈ tok.val) (hip : Gives t daemonIpVar ip)
    (hport : Gives t daemonPortVar port) (hfit : ∀ w ∈ ip, w.length < 16) (hnum : ∀ w ∈ port, IsPort w)
    (config : Block CtlConfig.size) :
    ∃ config', parseTokens t config = some config' ∧
      settingsIn config' = (fileLayer ip port).onto (settingsIn config) := by
  have hstring : ∀ w ∈ ip, NulFree w ∧ w.length < 16 := by
    intro w hw
    refine ⟨?_, hfit w hw⟩
    obtain rfl : ip = some w := hw
    obtain ⟨x, -, rfl⟩ := hip
    exact nulFree_cstr x.val
  obtain ⟨source, hsource, -⟩ := exists_gives hread sourcePortVar
  obtain ⟨c₁, hc₁, h₁⟩ := storeDaemonIp_settings hstring config
  obtain ⟨c₂, hc₂⟩ := Option.isSome_iff_exists.mp (storePort_isSome (o := daemonPortAt) (by decide) c₁ port)
  obtain ⟨c₃, hc₃⟩ := Option.isSome_iff_exists.mp (storePort_isSome (o := sourcePortAt) (by decide) c₂ source)
  refine ⟨c₃, (parseTokens_eq t config c₃).mpr
    ⟨ip, port, source, c₁, c₂, (gives_iff hread).mp hip, hc₁, (gives_iff hread).mp hport, hc₂, hsource, hc₃⟩, ?_⟩
  rw [storeSourcePort_settings hc₃, storeDaemonPort_settings hnum hc₂, h₁, ← Layer.above_onto, fileLayer_above]

end File

/-! ## The calls -/

/-- The call goes by the settings `x`. -/
def Sends (x : (k : Setting) → k.Value) : CtlCall → Prop
  | .inetPton ip       => ip = x .ip
  | .connect _ ip port => ip = x .ip ∧ port = x .port
  | .sendArgs _ args   => args.type = x .command
  | _                  => True

/-- `send_command` goes by the settings in its argument, and by no others. -/
theorem sendCommand_sends_iff {config : Block CtlConfig.size} {x : (k : Setting) → k.Value} :
    (sendCommand config).Within (Sends x) (fun _ => True) ↔ settingsIn config = x := by
  unfold sendCommand
  simp only [Prog.perform_eq, Prog.call_bind, Prog.ret_bind, Prog.pure_eq, Prog.within_call, Prog.within_ite,
    Prog.within_ret, implies_true, true_and, and_true]
  constructor
  · intro h
    have hzero : ¬ (0 : Int) < 0 := by decide
    have hone : ¬ (1 : Int) ≤ 0 := by decide
    -- every call succeeds
    obtain ⟨hip, h⟩ := h.2 (0 : Int) hzero
    obtain ⟨⟨-, hport⟩, h⟩ := h (1 : Int) hone
    obtain ⟨-, h⟩ := h (0 : Int) hzero
    obtain ⟨hcommand, -⟩ := h (1 : Int) hone
    funext k
    cases k with
    | command => exact hcommand
    | ip => exact hip
    | port => exact hport
  · rintro rfl
    refine ⟨trivial, fun _ _ => ⟨rfl, fun _ _ => ⟨⟨rfl, rfl⟩, fun _ _ => ?_⟩⟩⟩
    exact ⟨trivial, fun _ _ => ⟨rfl, fun _ _ => trivial⟩⟩

/-! ## `main` -/

/-- The arguments of `main` and what it finds around it: proper options, a home directory, and a file that is read as
    the tokens `t`. Its values can be read and fit, and the first ones of `daemon_ip` and `daemon_port` are given. -/
structure Setup (env : Env) (gs : List Given) (t : Tokenizer) (ip port : Option Bytes) : Prop where
  options    : ∀ g ∈ gs, Proper env g
  home       : (homePath env).isSome
  file       : ∃ path, pathFrom env (homePath env) gs = some path ∧ loadTokens env.line (env.files path) = .ok t
  strings    : ∀ tok ∈ t.tokens, nul ∈ tok.val
  daemonIp   : Gives t daemonIpVar ip
  daemonPort : Gives t daemonPortVar port
  short      : ∀ w ∈ ip, w.length < 16
  number     : ∀ w ∈ port, IsPort w

section Main

variable {env : Env} {gs : List Given} {t : Tokenizer} {ip port : Option Bytes}

/-- **The file goes before the options**, and the options before the built-in settings. -/
theorem main_settings (h : Setup env gs t ip port) :
    ∃ config, main env (gs.flatMap Given.words) = some (do let _ ← sendCommand config; return 0) ∧
      settingsIn config = ((fileLayer ip port).above (optionLayer gs)).onto builtin := by
  obtain ⟨home, hhome⟩ := Option.isSome_iff_exists.mp h.home
  obtain ⟨path, hpath, hload⟩ := h.file
  obtain ⟨s, hparse, hsets⟩ := parseOptions_sets ⟨CtlConfig.initial, home, true⟩ h.options
  obtain ⟨config, hconfig, hsettings⟩ :=
    parseTokens_settings h.strings h.daemonIp h.daemonPort h.short h.number s.config
  refine ⟨config, ?_, ?_⟩
  · have hsame : s.configPath = path := by
      rw [hhome] at hpath
      exact Option.some.inj (hsets.path.trans hpath)
    have hsettle : settle env s = some config := by
      rw [settle, if_pos hsets.parse, parseConfig, hsame, hload]
      exact hconfig
    rw [main, hhome, getopt_words fun g hg => (h.options g hg).ok]
    simp [hparse, hsettle]
  · rw [hsettings, hsets.settings, Layer.above_onto, settingsIn_initial]

/-- What `main` sends goes by these settings, and by no others. -/
theorem main_sends_iff (h : Setup env gs t ip port) (x : (k : Setting) → k.Value) :
    ∃ p, main env (gs.flatMap Given.words) = some p ∧
      (p.Within (Sends x) (fun _ => True) ↔ ((fileLayer ip port).above (optionLayer gs)).onto builtin = x) := by
  obtain ⟨config, hmain, hsettings⟩ := main_settings h
  refine ⟨_, hmain, ?_⟩
  rw [Prog.within_bind_iff, ← hsettings]
  exact sendCommand_sends_iff

/-- **Options first.** What is sent goes by the options, then the file and then the built-in settings, iff the options
    and the file give no setting different values. -/
theorem options_first_iff (h : Setup env gs t ip port) :
    ∃ p, main env (gs.flatMap Given.words) = some p ∧
      (p.Within (Sends (((optionLayer gs).above (fileLayer ip port)).onto builtin)) (fun _ => True) ↔
        Layer.Compatible (optionLayer gs) (fileLayer ip port)) := by
  obtain ⟨p, hmain, hp⟩ := main_sends_iff h (((optionLayer gs).above (fileLayer ip port)).onto builtin)
  exact ⟨p, hmain, hp.trans (eq_comm.trans Layer.above_comm_iff)⟩

end Main

/-- Every file is `daemon_port=16307`. -/
def portEnv : Env where
  home  := some [slash]
  cwd   := some [slash]
  files := fun _ => some (daemonPortVar ++ [equals, 49, 54, 51, 48, 55, newline])
  line  := List.replicate maxLineWidth 0

def portRead : Tokenizer := ⟨[noToken, tokenOf .variable 0 daemonPortVar, tokenOf .value 12 [49, 54, 51, 48, 55]]⟩

theorem portEnv_setup {gs : List Given} (hgs : ∀ g ∈ gs, Proper portEnv g) (hc : Given.last letterC gs = none) :
    Setup portEnv gs portRead none (some [49, 54, 51, 48, 55]) where
  options    := hgs
  home       := by decide
  file       := by
    have hload : loadTokens portEnv.line (portEnv.files []) = .ok portRead := by decide +kernel
    have hhome : (homePath portEnv).isSome := by decide
    obtain ⟨path, hpath⟩ := Option.isSome_iff_exists.mp hhome
    exact ⟨path, by rw [pathFrom, hc, hpath], hload⟩
  strings    := by decide
  daemonIp   := (gives_iff (by decide)).mpr (by decide +kernel)
  daemonPort := (gives_iff (by decide)).mpr (by decide +kernel)
  short      := by
    rintro w ⟨⟩
  number     := by
    rintro w ⟨⟩
    exact ⟨16307, .digits (by decide) (List.all_eq_true.mp rfl), by decide, by decide⟩

/-- `-i10.0.0.2 -t stop -t start`. -/
def startRemote : List Given :=
  [⟨letterI, [49, 48, 46, 48, 46, 48, 46, 50], true⟩, ⟨letterT, stopName, false⟩, ⟨letterT, startName, false⟩]

theorem options_first_iff_remote : ∃ p, main portEnv (startRemote.flatMap Given.words) = some p ∧
    (p.Within (Sends (((optionLayer startRemote).above (fileLayer none (some [49, 54, 51, 48, 55]))).onto builtin))
        (fun _ => True) ↔
      Layer.Compatible (optionLayer startRemote) (fileLayer none (some [49, 54, 51, 48, 55]))) :=
  options_first_iff (portEnv_setup (by decide) rfl)

/-- With `-d 9000`, the port of the file is used all the same. -/
theorem port_overruled : ¬ ∀ (env : Env) (gs : List Given) (t : Tokenizer) (ip port : Option Bytes),
    Setup env gs t ip port → ∃ p, main env (gs.flatMap Given.words) = some p ∧
      p.Within (Sends (((optionLayer gs).above (fileLayer ip port)).onto builtin)) fun _ => True := by
  intro h
  have hproper : ∀ g ∈ [(⟨letterD, [57, 48, 48, 48], false⟩ : Given)], Proper portEnv g := by decide
  have hsetup := portEnv_setup hproper rfl
  obtain ⟨p, hmain, hp⟩ := h _ _ _ _ _ hsetup
  obtain ⟨p', hmain', hp'⟩ := main_sends_iff hsetup _
  obtain rfl : p = p' := Option.some.inj (hmain.symm.trans hmain')
  have hport := congrFun (hp'.mp hp) .port
  exact absurd hport (by decide)

end Ctl

end IOSwitch
