import IOSwitch.Config.Ctl
import IOSwitch.Config.Heap
import IOSwitch.Config.Ports
import IOSwitch.Server.Sender
import IOSwitch.Tokenizer.Append

/-!
# `Config.Fields` — what the structures have room for

A value of the tokenizer has 256 bytes, `daemon_ip` and `dest_ip` have 16, a device name has 64, and there are eight of
them. The writes of `load_config` are listed with the members they are meant for (`Settings.writes`,
`loadFrom_writes`), so that it can be said of each whether it stays inside (`LoadInside`); `CtlInside` says the same of
`parse_config`, and `SenderInside` of the loop in which a sender copies the names of a loaded config.

Nothing on the way bounds a length or a number. `fields_iff` says which values fit.
-/

namespace IOSwitch

open Lib Tokenizer Block

namespace Config

/-! ## The writes of `load_config` -/

/-- A member of `Config`, or an element of `device_names`. -/
inductive Field where
  | destIp | destPort
  | deviceName (i : Nat)
  | numDevices
  deriving DecidableEq

/-- Where it lies. -/
def Field.at : Field → Nat
  | destIp       => destIpAt
  | destPort     => destPortAt
  | deviceName i => deviceNameAt i
  | numDevices   => numDevicesAt

/-- How many bytes it has; `device_names` ends with its eighth element. -/
def Field.room : Field → Nat
  | destIp       => 16
  | destPort     => 2
  | deviceName i => if i < maxDevices then 64 else 0
  | numDevices   => 2

structure Write where
  field : Field
  bytes : Bytes

/-- The write is made, wherever it ends. -/
def Write.run (config : Block size) (w : Write) : Option (Block size) := config.store w.field.at w.bytes

/-- A copied device name. -/
def Write.isName (w : Write) : Bool := match w.field with
  | .deviceName _ => true
  | _             => false

namespace Settings

/-- The names are copied, from the `i`-th on. -/
def nameWrites (i : Nat) : List Bytes → List Write
  | []         => []
  | w :: names => ⟨.deviceName i, w ++ [0]⟩ :: nameWrites (i + 1) names

def destIpWrites (s : Settings) : List Write :=
  match s.destIp with
  | none    => []
  | some ip => [⟨.destIp, ip ++ [0]⟩]

def destPortWrites (s : Settings) : List Write :=
  match s.destPort with
  | none   => []
  | some w => if atoi w ≠ 0 then [⟨.destPort, toLe 2 (atoi w).toNat⟩] else []

def deviceWrites (s : Settings) : List Write :=
  match s.devices with
  | none       => []
  | some names => nameWrites 0 names ++ [⟨.numDevices, toLe 2 names.length⟩]

/-- What is written, in order. -/
def writes (s : Settings) : List Write := s.destIpWrites ++ (s.destPortWrites ++ s.deviceWrites)

theorem storeNames_writes (config : Block size) (i : Nat) (names : List Bytes) :
    storeNames config i names = (nameWrites i names).foldlM Write.run config := by
  induction names generalizing config i with
  | nil => rfl
  | cons w names ih =>
      rw [storeNames, nameWrites, List.foldlM_cons]
      refine congrArg (_ >>= ·) (funext fun config' => ?_)
      exact ih config' (i + 1)

/-- The settings are written by these writes. -/
theorem store_writes (s : Settings) (config : Block size) : s.store config = s.writes.foldlM Write.run config := by
  have hip : ∀ config, s.storeDestIp config = s.destIpWrites.foldlM Write.run config := by
    intro config
    unfold storeDestIp destIpWrites
    cases s.destIp with
    | none => rfl
    | some ip => exact (bind_pure _).symm
  have hport : ∀ config, s.storeDestPort config = s.destPortWrites.foldlM Write.run config := by
    intro config
    unfold storeDestPort destPortWrites
    cases s.destPort with
    | none => rfl
    | some w =>
        dsimp only
        split
        · exact (bind_pure _).symm
        · rfl
  have hdev : ∀ config, s.storeDevices config = s.deviceWrites.foldlM Write.run config := by
    intro config
    unfold storeDevices deviceWrites
    cases s.devices with
    | none => rfl
    | some names =>
        dsimp only
        rw [storeNames_writes, List.foldlM_append]
        refine congrArg (_ >>= ·) (funext fun config' => ?_)
        exact (bind_pure _).symm
  rw [store, writes, List.foldlM_append, hip]
  refine congrArg (_ >>= ·) (funext fun config' => ?_)
  rw [hport, List.foldlM_append]
  refine congrArg (_ >>= ·) (funext fun config' => ?_)
  exact hdev config'

theorem mem_nameWrites {i : Nat} {names : List Bytes} {x : Write} :
    x ∈ nameWrites i names ↔ ∃ k w, names[k]? = some w ∧ x = ⟨.deviceName (i + k), w ++ [0]⟩ := by
  induction names generalizing i with
  | nil => simp [nameWrites]
  | cons w names ih =>
      rw [nameWrites, List.mem_cons, ih]
      constructor
      · rintro (rfl | ⟨k, v, hv, rfl⟩)
        · exact ⟨0, w, rfl, rfl⟩
        · exact ⟨k + 1, v, hv, by rw [Nat.add_assoc, Nat.add_comm 1 k]⟩
      · rintro ⟨k, v, hv, rfl⟩
        cases k with
        | zero =>
            cases hv
            exact Or.inl rfl
        | succ k => exact Or.inr ⟨k, v, hv, by rw [Nat.add_assoc, Nat.add_comm 1 k]⟩

theorem count_nameWrites (i : Nat) (names : List Bytes) :
    (nameWrites i names).countP Write.isName = names.length := by
  induction names generalizing i with
  | nil => rfl
  | cons w names ih => rw [nameWrites, List.countP_cons_of_pos rfl, ih, List.length_cons]

/-- As many names are written as there are devices. -/
theorem count_writes (s : Settings) : s.writes.countP Write.isName = (s.devices.getD []).length := by
  have hip : s.destIpWrites.countP Write.isName = 0 := by
    unfold destIpWrites
    cases s.destIp <;> rfl
  have hport : s.destPortWrites.countP Write.isName = 0 := by
    unfold destPortWrites
    cases s.destPort with
    | none => rfl
    | some w =>
        dsimp only
        split <;> rfl
  have hdev : s.deviceWrites.countP Write.isName = (s.devices.getD []).length := by
    unfold deviceWrites
    cases s.devices with
    | none => rfl
    | some names =>
        dsimp only
        rw [List.countP_append, count_nameWrites]
        rfl
  rw [writes, List.countP_append, List.countP_append, hip, hport, hdev, Nat.zero_add, Nat.zero_add]

end Settings

/-- The writes that `load_config` makes for these tokens. -/
def writesOf (t : Tokenizer) : Option (List Write) := (settingsOf t).map Settings.writes

/-- **`load_config`** makes these writes. -/
theorem loadFrom_writes (t : Tokenizer) (config : Block size) :
    loadFrom t config = (writesOf t).bind fun ws => ws.foldlM Write.run config := by
  rw [loadFrom_eq, writesOf]
  cases settingsOf t with
  | none => rfl
  | some s => exact s.store_writes config

/-! ## Staying inside -/

/-- `load_config` writes every member within its room, and `num_devices` is the number of names it has stored. -/
def LoadInside (t : Tokenizer) : Prop :=
  ∃ ws, writesOf t = some ws ∧ (∀ w ∈ ws, w.bytes.length ≤ w.field.room) ∧
    ∀ heap, ∃ config, loadFrom t heap = some config ∧
      (ofBlock config).numDevices.toNat = ws.countP Write.isName ∧ (ofBlock config).numDevices.toNat ≤ maxDevices

/-- `parse_config` writes nothing past its structure, of which `daemon_ip` is the last member. -/
def CtlInside (t : Tokenizer) : Prop := ∀ config, (CtlConfig.parseTokens t config).isSome

/-- The loop that opens the devices of a config and copies their names: if it gets to its end, it has filled no more
    descriptors than there are, and every element of `conn.device_names` still has its 64 bytes. -/
def SenderInside (config : Config) : Prop :=
  (Sender.openDevices config config.numDevices.toNat 0
    ⟨.inputStream, BitVec.ofNat 32 config.numDevices.toNat, NewConnection.noNames⟩ []).Within (fun _ => True) fun r =>
      ∀ opened ∈ r, opened.2.length ≤ config.numDevices.toNat ∧ opened.2.length ≤ maxDevices ∧
        opened.1.deviceNames.map List.length = List.replicate maxDevices 64

/-- All of them stay inside, the sender with whatever config has been loaded. -/
structure Inside (t : Tokenizer) : Prop where
  load   : LoadInside t
  ctl    : CtlInside t
  sender : ∀ heap config, loadFrom t heap = some config → SenderInside (ofBlock config)

/-- The values fit: the addresses, and between one and eight devices. -/
structure ValuesFit (t : Tokenizer) : Prop where
  destIp   : ∀ ip, firstText t destIpVar = some (some ip) → ip.length < 16
  devices  : ∃ names, allTexts t devicesVar = some (some names) ∧ names.length ≤ maxDevices ∧
    ∀ w ∈ names, w.length < 64
  daemonIp : ∀ ip, firstText t CtlConfig.daemonIpVar = some (some ip) → ip.length < 16

/-! ## Tokens that can be read -/

section Readable

variable {t : Tokenizer} (hread : ∀ tok ∈ t.tokens, nul ∈ tok.val)
include hread

theorem textOf_some {tok : Token} (h : tok ∈ t.tokens) : textOf tok = some (cstr tok.val) := by
  rw [textOf, text, if_pos (hread tok h)]
  rfl

theorem lookup_defined (var : Bytes) : ∃ found, lookup t var = some found := by
  have htext : ∀ tok ∈ t.tokens, tok.type = .variable → ∃ w, text tok = .ok w :=
    fun tok h _ => ⟨_, if_pos (hread tok h)⟩
  apply Option.isSome_iff_exists.mp
  rw [lookup, getVariable, findValues_picked var htext]
  rfl

theorem firstText_defined (var : Bytes) : ∃ w, firstText t var = some w := by
  obtain ⟨found, hfound⟩ := lookup_defined hread var
  unfold firstText
  rw [hfound]
  cases found with
  | none => exact ⟨none, rfl⟩
  | some vals =>
      obtain ⟨hne, hmem⟩ := lookup_some hfound
      obtain ⟨v, rest, rfl⟩ := List.exists_cons_of_ne_nil hne
      have hv := textOf_some hread (hmem v List.mem_cons_self)
      exact ⟨_, by simp [hv]; rfl⟩

theorem allTexts_defined (var : Bytes) : ∃ ws, allTexts t var = some ws := by
  obtain ⟨found, hfound⟩ := lookup_defined hread var
  unfold allTexts
  rw [hfound]
  cases found with
  | none => exact ⟨none, rfl⟩
  | some vals =>
      have hmem := (lookup_some hfound).2
      have hall : ∃ ws, vals.mapM textOf = some ws := by
        clear hfound
        induction vals with
        | nil => exact ⟨[], rfl⟩
        | cons v vals ih =>
            obtain ⟨ws, hws⟩ := ih fun u hu => hmem u (List.mem_cons_of_mem v hu)
            have hv := textOf_some hread (hmem v List.mem_cons_self)
            exact ⟨_, by rw [List.mapM_cons, hv, hws]; rfl⟩
      obtain ⟨ws, hws⟩ := hall
      exact ⟨some ws, by simp [hws]⟩

/-- The settings are defined, and they are what `get_variable` finds. -/
theorem settingsOf_defined :
    ∃ s, settingsOf t = some s ∧ firstText t destIpVar = some s.destIp ∧ allTexts t devicesVar = some s.devices := by
  obtain ⟨ip, hip⟩ := firstText_defined hread destIpVar
  obtain ⟨port, hport⟩ := firstText_defined hread destPortVar
  obtain ⟨devices, hdev⟩ := allTexts_defined hread devicesVar
  exact ⟨⟨ip, port, devices⟩, by simp [settingsOf, hip, hport, hdev], hip, hdev⟩

end Readable

/-! ## What is in the block afterwards -/

/-- A string ends at its first NUL at the latest. -/
theorem str_length_le {b : Block size} {o j : Nat} (h : o + j < size) (hnul : b.get (o + j) = 0) :
    (b.str o).length ≤ j := by
  induction j generalizing o with
  | zero =>
      have hnul' : b.get o = 0 := hnul
      rw [Block.str_eq (by omega), if_pos hnul']
      exact Nat.le_refl 0
  | succ j ih =>
      rw [Block.str_eq (by omega)]
      split
      · exact Nat.zero_le _
      · have hback : o + 1 + j = o + (j + 1) := by omega
        have hrest := ih (o := o + 1) (by omega) (by rw [hback]; exact hnul)
        rw [List.length_cons]
        omega

/-- Names that fit leave the NULs of those before them. -/
theorem storeNames_nul {b b' : Block size} {i : Nat} {names : List Bytes} (h : Settings.storeNames b i names = some b')
    (hfit : ∀ w ∈ names, w.length < 64) {k : Nat} {w : Bytes} (hw : names[k]? = some w) :
    b'.get (deviceNameAt (i + k) + w.length) = 0 := by
  induction names generalizing b i k with
  | nil => simp at hw
  | cons v names ih =>
      obtain ⟨b₁, hstore, hnext⟩ := Option.bind_eq_some_iff.mp h
      cases k with
      | zero =>
          cases hw
          have hlen : w.length < 64 := hfit w List.mem_cons_self
          rw [Settings.storeNames_get hnext (by unfold deviceNameAt; omega), Nat.add_zero, Block.store_get hstore,
            if_pos (by simp)]
          simp
      | succ k =>
          have hrest := ih hnext (fun u hu => hfit u (List.mem_cons_of_mem v hu)) hw
          rwa [Nat.add_assoc, Nat.add_comm 1 k] at hrest

section Devices

variable {s : Settings} {b b' : Block size} {names : List Bytes} (hnames : s.devices = some names)
  (h : s.storeDevices b = some b')
include hnames h

/-- The number of devices is that of the names. -/
theorem storeDevices_num (hfew : names.length < 256) : (ofBlock b').numDevices.toNat = names.length := by
  rw [Settings.storeDevices, hnames] at h
  obtain ⟨b₁, -, h⟩ := Option.bind_eq_some_iff.mp h
  have hhigh : names.length / 256 = 0 := by omega
  have hword : toLe 2 names.length = [UInt8.ofNat names.length, 0] := by
    rw [toLe, toLe, toLe, hhigh]
    rfl
  show (b'.u16 numDevicesAt).toNat = _
  rw [Block.u16_eq (by decide), Block.store_get h, Block.store_get h, hword, if_pos (by simp), if_pos (by simp)]
  simp
  omega

/-- The names of the loaded config are no longer than those that have been copied. -/
theorem storeDevices_name (hfew : names.length ≤ maxDevices) (hfit : ∀ w ∈ names, w.length < 64) {i : Nat}
    (hi : i < names.length) : (cstr ((ofBlock b').deviceName i)).length < 64 := by
  have hnum := storeDevices_num hnames h (Nat.lt_of_le_of_lt hfew (by decide))
  rw [Settings.storeDevices, hnames] at h
  obtain ⟨b₁, hstore, h⟩ := Option.bind_eq_some_iff.mp h
  have hlen : names[i].length < 64 := hfit _ (List.getElem_mem hi)
  have hname : (ofBlock b').deviceName i = b'.str (deviceNameAt i) := by
    have hin : i < (b'.u16 numDevicesAt).toNat := by
      show i < (ofBlock b').numDevices.toNat
      omega
    unfold Config.deviceName ofBlock
    simp [hin]
  unfold maxDevices at hfew
  have hnul : b'.get (deviceNameAt i + names[i].length) = 0 := by
    have hbefore := storeNames_nul hstore hfit (List.getElem?_eq_getElem hi)
    rw [Nat.zero_add] at hbefore
    rw [Block.store_get_of_lt h (by unfold deviceNameAt numDevicesAt; omega), hbefore]
  have hstr : (b'.str (deviceNameAt i)).length ≤ names[i].length :=
    str_length_le (by unfold deviceNameAt size; omega) hnul
  rw [hname]
  unfold Block.str at hstr ⊢
  rw [cstr_of_nulFree (nulFree_cstr _)]
  omega

end Devices

/-! ## The sender -/

/-- A copy that fits keeps the sizes of all elements. -/
theorem copyName_sizes {conn : NewConnection} {i n : Nat} {name : Bytes} (hname : (cstr name).length < 64)
    (h : conn.deviceNames.map List.length = List.replicate n 64) :
    (conn.copyName i name).deviceNames.map List.length = List.replicate n 64 := by
  rw [← h]
  apply List.ext_getElem?
  intro k
  show ((conn.deviceNames.modify i (strcpy · name)).map List.length)[k]? = _
  rw [List.getElem?_map, List.getElem?_modify, List.getElem?_map]
  cases hk : conn.deviceNames[k]? with
  | none => simp
  | some old =>
      have hold : old.length = 64 := by
        have hget := congrArg (·[k]?) h
        simp only [List.getElem?_map, hk, Option.map_some, List.getElem?_replicate] at hget
        split at hget
        · exact Option.some.inj hget
        · cases hget
      by_cases hik : i = k
      · simp [hik, @strcpy_length old name (by omega)]
      · simp [hik]

/-- **The loop** stays inside as long as the names fit. -/
theorem openDevices_within {config : Config} {m : Nat} (hfit : ∀ i < m, (cstr (config.deviceName i)).length < 64)
    (n i : Nat) (conn : NewConnection) (fds : List Int) (hi : i + n ≤ m) (hfds : fds.length = i)
    (hconn : conn.deviceNames.map List.length = List.replicate maxDevices 64) :
    (Sender.openDevices config n i conn fds).Within (fun _ => True) fun r =>
      ∀ opened ∈ r, opened.2.length = i + n ∧
        opened.1.deviceNames.map List.length = List.replicate maxDevices 64 := by
  induction n generalizing i conn fds with
  | zero =>
      rintro opened ⟨⟩
      exact ⟨hfds, hconn⟩
  | succ n ih =>
      refine ⟨trivial, ?_⟩
      intro fd
      show (if fd < 0 then (Prog.ret none : Prog senderI _) else Sender.openDevices config n (i + 1) _ _).Within _ _
      split
      · rintro opened ⟨⟩
      · have hrest := ih (i + 1) (conn.copyName i (config.deviceName i)) (fds ++ [fd]) (by omega) (by simp [hfds])
          (copyName_sizes (hfit i (by omega)) hconn)
        rwa [Nat.add_assoc, Nat.add_comm 1 n] at hrest

theorem senderInside_of_fit {config : Config} (hfew : config.numDevices.toNat ≤ maxDevices)
    (hfit : ∀ i < config.numDevices.toNat, (cstr (config.deviceName i)).length < 64) : SenderInside config := by
  have hsizes : NewConnection.noNames.map List.length = List.replicate maxDevices 64 := by decide
  refine Prog.Within.mono (openDevices_within hfit _ 0 _ [] (by omega) rfl hsizes) (fun _ h => h) ?_
  intro r hr opened hopened
  obtain ⟨hlen, hsizes⟩ := hr opened hopened
  exact ⟨by omega, by omega, hsizes⟩

/-! ## Which values fit -/

theorem mem_writes_destIp {s : Settings} {ip : Bytes} (h : s.destIp = some ip) : ⟨.destIp, ip ++ [0]⟩ ∈ s.writes := by
  rw [Settings.writes, Settings.destIpWrites, h]
  exact List.mem_append_left _ (List.mem_singleton_self _)

theorem mem_writes_name {s : Settings} {names : List Bytes} (h : s.devices = some names) {k : Nat} {w : Bytes}
    (hw : names[k]? = some w) : ⟨.deviceName k, w ++ [0]⟩ ∈ s.writes := by
  rw [Settings.writes, Settings.deviceWrites, h]
  refine List.mem_append_right _ (List.mem_append_right _ (List.mem_append_left _ ?_))
  exact Settings.mem_nameWrites.mpr ⟨k, w, hw, by rw [Nat.zero_add]⟩

/-- Writes that stay inside are writes of values that fit, and there is a list of devices among them: otherwise
    `num_devices` is what was on the heap. -/
theorem fit_of_load {t : Tokenizer} {s : Settings} (hs : settingsOf t = some s) (h : LoadInside t) :
    (∀ ip, s.destIp = some ip → ip.length < 16) ∧
      ∃ names, s.devices = some names ∧ names.length ≤ maxDevices ∧ ∀ w ∈ names, w.length < 64 := by
  obtain ⟨ws, hws, hroom, hload⟩ := h
  rw [writesOf, hs] at hws
  cases hws
  have hip : ∀ ip, s.destIp = some ip → ip.length < 16 := by
    intro ip hip
    have hlen : (ip ++ [0]).length ≤ 16 := hroom _ (mem_writes_destIp hip)
    rw [List.length_append, List.length_singleton] at hlen
    omega
  refine ⟨hip, ?_⟩
  cases hdev : s.devices with
  | none =>
      exfalso
      obtain ⟨config, hconfig, hnum, -⟩ := hload (.fill size 1)
      rw [loadFrom_eq, hs] at hconfig
      have hget : ∀ j, numDevicesAt ≤ j → j < size → config.get j = 1 := by
        intro j hlow hhigh
        rw [Settings.store_get hconfig (fun ip h => Nat.lt_of_lt_of_le (hip ip h) (Nat.le_trans (by decide) hlow))
          (fun _ => Or.inr (Nat.le_trans (by decide) hlow)) (Or.inl hdev), Settings.fill_get hhigh]
      rw [Settings.count_writes, hdev] at hnum
      have hword : (config.u16 numDevicesAt).toNat = 0 := hnum
      rw [Block.u16_eq (by decide), hget _ (Nat.le_refl _) (by decide), hget _ (by decide) (by decide)] at hword
      cases hword
  | some names =>
      have hname : ∀ k w, names[k]? = some w → k < maxDevices ∧ w.length < 64 := by
        intro k w hw
        have hlen : (w ++ [0]).length ≤ if k < maxDevices then 64 else 0 := hroom _ (mem_writes_name hdev hw)
        rw [List.length_append, List.length_singleton] at hlen
        split at hlen
        · next hk => exact ⟨hk, by omega⟩
        · omega
      refine ⟨names, rfl, ?_, fun w hw => ?_⟩
      · by_contra hmany
        have hlast := (hname maxDevices _ (List.getElem?_eq_getElem (by omega))).1
        omega
      · obtain ⟨k, hk⟩ := List.mem_iff_getElem?.mp hw
        exact (hname k w hk).2

/-- Values that fit are written inside. -/
theorem load_of_fit {t : Tokenizer} {s : Settings} {names : List Bytes} (hs : settingsOf t = some s)
    (hip : ∀ ip, s.destIp = some ip → ip.length < 16) (hdev : s.devices = some names)
    (hfew : names.length ≤ maxDevices) (hfit : ∀ w ∈ names, w.length < 64) : LoadInside t := by
  refine ⟨s.writes, by rw [writesOf, hs]; rfl, ?_, fun heap => ?_⟩
  · intro w hw
    rw [Settings.writes, List.mem_append, List.mem_append] at hw
    rcases hw with hw | hw | hw
    · unfold Settings.destIpWrites at hw
      cases h : s.destIp with
      | none => simp [h] at hw
      | some ip =>
          have hlen := hip ip h
          obtain rfl : w = ⟨.destIp, ip ++ [0]⟩ := by simpa [h] using hw
          show (ip ++ [0]).length ≤ 16
          rw [List.length_append, List.length_singleton]
          omega
    · unfold Settings.destPortWrites at hw
      cases h : s.destPort with
      | none => simp [h] at hw
      | some v =>
          simp only [h] at hw
          split at hw
          · rw [List.mem_singleton.mp hw]
            show (toLe 2 _).length ≤ 2
            rw [toLe_length]
          · cases hw
    · unfold Settings.deviceWrites at hw
      simp only [hdev] at hw
      rcases List.mem_append.mp hw with hw | hw
      · obtain ⟨k, v, hv, rfl⟩ := Settings.mem_nameWrites.mp hw
        have hk : k < names.length := (List.getElem?_eq_some_iff.mp hv).1
        have hlen : v.length < 64 := hfit v (List.mem_of_getElem? hv)
        show (v ++ [0]).length ≤ if 0 + k < maxDevices then 64 else 0
        rw [if_pos (by omega), List.length_append, List.length_singleton]
        omega
      · rw [List.mem_singleton.mp hw]
        show (toLe 2 _).length ≤ 2
        rw [toLe_length]
  · -- each of the three stages is defined
    obtain ⟨b₁, h₁⟩ : ∃ b₁, s.storeDestIp heap = some b₁ := by
      unfold Settings.storeDestIp
      cases h : s.destIp with
      | none => exact ⟨heap, rfl⟩
      | some ip =>
          have hlen := hip ip h
          exact Block.exists_store (by unfold destIpAt size; rw [List.length_append, List.length_singleton]; omega) heap
    obtain ⟨b₂, h₂⟩ : ∃ b₂, s.storeDestPort b₁ = some b₂ := by
      unfold Settings.storeDestPort
      cases h : s.destPort with
      | none => exact ⟨b₁, rfl⟩
      | some w =>
          dsimp only
          split
          · exact Block.exists_store (by rw [toLe_length]; decide) b₁
          · exact ⟨b₁, rfl⟩
    obtain ⟨b₃, h₃⟩ : ∃ b₃, s.storeDevices b₂ = some b₃ := by
      have hin : Settings.NamesFit 0 names := by
        intro k w hw
        have hk : k < names.length := (List.getElem?_eq_some_iff.mp hw).1
        have hlen : w.length < 64 := hfit w (List.mem_of_getElem? hw)
        unfold maxDevices at hfew
        unfold deviceNameAt size
        omega
      obtain ⟨b, hb⟩ := Option.isSome_iff_exists.mp (Settings.storeNames_isSome (b := b₂) |>.mpr hin)
      obtain ⟨b₃, h₃⟩ := Block.exists_store (s := toLe 2 names.length) (o := numDevicesAt)
        (by rw [toLe_length]; decide) b
      refine ⟨b₃, ?_⟩
      rw [Settings.storeDevices, hdev]
      show (Settings.storeNames b₂ 0 names >>= _) = _
      rw [hb]
      exact h₃
    have hnum := storeDevices_num hdev h₃ (Nat.lt_of_le_of_lt hfew (by decide))
    refine ⟨b₃, ?_, ?_, by rw [hnum]; exact hfew⟩
    · rw [loadFrom_eq, hs]
      show ((s.storeDestIp heap).bind fun b => (s.storeDestPort b).bind s.storeDevices) = _
      rw [h₁, Option.bind_some, h₂, Option.bind_some, h₃]
    · rw [hnum, Settings.count_writes, hdev]
      rfl

/-- `parse_config` stays inside iff the address fits. -/
theorem ctlInside_iff {t : Tokenizer} (hread : ∀ tok ∈ t.tokens, nul ∈ tok.val) :
    CtlInside t ↔ ∀ ip, firstText t CtlConfig.daemonIpVar = some (some ip) → ip.length < 16 := by
  have hports : ∀ config, ((CtlConfig.parseDaemonPort t config).bind (CtlConfig.parseSourcePort t)).isSome := by
    intro config
    obtain ⟨port, hport⟩ := firstText_defined hread CtlConfig.daemonPortVar
    obtain ⟨source, hsource⟩ := firstText_defined hread CtlConfig.sourcePortVar
    obtain ⟨b, hb⟩ := Option.isSome_iff_exists.mp
      (storePort_isSome (o := CtlConfig.daemonPortAt) (by decide) config port)
    have hb' : CtlConfig.parseDaemonPort t config = some b := by
      rw [CtlConfig.parseDaemonPort, parsePort_eq, hport]
      exact hb
    rw [hb', Option.bind_some, CtlConfig.parseSourcePort, parsePort_eq, hsource]
    exact storePort_isSome (by decide) b source
  obtain ⟨found, hfound⟩ := firstText_defined hread CtlConfig.daemonIpVar
  have hparse : ∀ config, CtlConfig.parseTokens t config = (CtlConfig.parseDaemonIp t config).bind fun b =>
      (CtlConfig.parseDaemonPort t b).bind (CtlConfig.parseSourcePort t) := fun _ => rfl
  have hip : ∀ config, CtlConfig.parseDaemonIp t config = CtlConfig.storeDaemonIp config found := by
    intro config
    rw [CtlConfig.parseDaemonIp_eq, hfound]
    rfl
  constructor
  · rintro h ip hsome
    rw [hfound, Option.some.injEq] at hsome
    subst hsome
    have hall := h (.fill CtlConfig.size 0)
    rw [hparse, hip] at hall
    obtain ⟨b, hb, -⟩ := Option.bind_eq_some_iff.mp (Option.isSome_iff_exists.mp hall).choose_spec
    have hfits := Block.store_fits hb
    rw [List.length_append, List.length_singleton] at hfits
    unfold CtlConfig.daemonIpAt CtlConfig.size at hfits
    omega
  · intro h config
    rw [hparse, hip]
    cases found with
    | none => exact hports config
    | some ip =>
        have hlen := h ip hfound
        obtain ⟨b, hb⟩ := Block.exists_store (n := CtlConfig.size) (o := CtlConfig.daemonIpAt) (s := ip ++ [0])
          (by rw [List.length_append, List.length_singleton]; unfold CtlConfig.daemonIpAt CtlConfig.size; omega) config
        rw [CtlConfig.storeDaemonIp, hb]
        exact hports b

/-- **Settings fit the structures** they are copied into, in the daemon, in its senders and in `ioswitchctl`, iff the
    addresses have at most 15 bytes and there are between one and eight devices, of at most 63 bytes each. -/
theorem fields_iff (t : Tokenizer) (hread : ∀ tok ∈ t.tokens, nul ∈ tok.val) : Inside t ↔ ValuesFit t := by
  obtain ⟨s, hs, hip, hdev⟩ := settingsOf_defined hread
  constructor
  · rintro ⟨hload, hctl, -⟩
    obtain ⟨hipfit, names, hnames, hfew, hfit⟩ := fit_of_load hs hload
    refine ⟨fun ip h => ?_, ⟨names, ?_, hfew, hfit⟩, (ctlInside_iff hread).mp hctl⟩
    · rw [hip, Option.some.injEq] at h
      exact hipfit ip h
    · rw [hdev, hnames]
  · rintro ⟨hipfit, ⟨names, hnames, hfew, hfit⟩, hctlfit⟩
    rw [hdev, Option.some.injEq] at hnames
    have hipfit' : ∀ ip, s.destIp = some ip → ip.length < 16 := fun ip h => hipfit ip (by rw [hip, h])
    refine ⟨load_of_fit hs hipfit' hnames hfew hfit, (ctlInside_iff hread).mpr hctlfit, ?_⟩
    intro heap config hload
    rw [loadFrom_eq, hs] at hload
    have hstore : s.store heap = some config := hload
    obtain ⟨b₁, -, hrest⟩ := Option.bind_eq_some_iff.mp hstore
    obtain ⟨b₂, -, hlast⟩ := Option.bind_eq_some_iff.mp hrest
    have hnum := storeDevices_num hnames hlast (Nat.lt_of_le_of_lt hfew (by decide))
    apply senderInside_of_fit (by rw [hnum]; exact hfew)
    intro i hi
    rw [hnum] at hi
    exact storeDevices_name hnames hlast hfew hfit hi

/-- The tokens of `dest_ip=` and an address, and of `devices={m,}`. -/
def addressTokens (ip : Bytes) : Tokenizer :=
  ⟨[tokenOf .variable 0 destIpVar, tokenOf .value 8 ip, tokenOf .variable 0 devicesVar, tokenOf .openBracket 8 [openBrace],
    tokenOf .value 9 [109], tokenOf .closeBracket 11 [closeBrace]]⟩

/-- The address `10.0.0.7`. -/
theorem fields_iff_short :
    Inside (addressTokens [49, 48, 46, 48, 46, 48, 46, 55]) ↔ ValuesFit (addressTokens [49, 48, 46, 48, 46, 48, 46, 55]) :=
  fields_iff _ (by decide +kernel)

/-- `host.example.com`, which has 16 bytes. -/
def hostName : Bytes := [104, 111, 115, 116, 46, 101, 120, 97, 109, 112, 108, 101, 46, 99, 111, 109]

/-- Its NUL is written into `dest_port`. -/
theorem address_overrun : ¬ ∀ t : Tokenizer, (∀ tok ∈ t.tokens, nul ∈ tok.val) → Inside t := by
  intro h
  have hread : ∀ tok ∈ (addressTokens hostName).tokens, nul ∈ tok.val := by decide +kernel
  have hs : settingsOf (addressTokens hostName) = some ⟨some hostName, none, some [[109]]⟩ := by decide +kernel
  have hlen : hostName.length < 16 := (fit_of_load hs (h _ hread).load).1 hostName rfl
  exact absurd hlen (by decide)

end Config

end IOSwitch
