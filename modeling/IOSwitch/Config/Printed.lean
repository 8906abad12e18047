import IOSwitch.Config.Fields
import IOSwitch.Config.Ports
import IOSwitch.Tokenizer.RoundTrip

/-!
# `Config.Printed` — a config in the documented format is loaded as what it says

A `ConfigText` that gives an address, a port and device names, all of which fit, is loaded as the `Config` with these
values, whatever else it says, however it is laid out, and whatever `malloc` and the stack held (`loadConfig_sets`).

`Settings` of the printed file are read off its items (`settings_print`); `Holds` follows what is written into the block
through the writes behind it.
-/

namespace IOSwitch

open Lib Tokenizer Block

namespace Config

/-! ## The settings of a printed file -/

/-- `get_variable` on the tokens of a printed file. -/
theorem lookup_print (c : ConfigText) (var : Bytes) :
    ∃ vals, lookup ⟨noToken :: c.lines.flatMap Line.tokens⟩ var = some (if vals = [] then none else some vals) ∧
      vals.mapM textOf = some (c.valuesOf (cstr var)) := by
  refine ⟨c.items.flatMap (Item.taken (cstr var)), ?_, ?_⟩
  · have hfind : findValues var false [] (noToken :: c.lines.flatMap Line.tokens) =
        .ok (c.items.flatMap (Item.taken (cstr var))) := by
      rw [findValues_skip (.inl rfl)]
      exact findValues_items c.items var false []
    rw [lookup, getVariable, hfind]
    simp only [List.length_eq_zero_iff]
    rfl
  · have hitems : (fun i => (Item.taken (cstr var) i).map text) = fun i => (i.valuesOf (cstr var)).map .ok :=
      funext fun i => i.text_taken (cstr var)
    have htext : (c.items.flatMap (Item.taken (cstr var))).map text = (c.valuesOf (cstr var)).map .ok := by
      rw [List.map_flatMap, ConfigText.valuesOf, List.map_flatMap, hitems]
    apply mapM_of_map
    have hread := congrArg (List.map Except.toOption) htext
    rwa [List.map_map, List.map_map] at hread

/-- The first value of a variable, and all of them. -/
theorem texts_print (c : ConfigText) (var : Bytes) :
    firstText ⟨noToken :: c.lines.flatMap Line.tokens⟩ var = some (c.valuesOf (cstr var)).head? ∧
      allTexts ⟨noToken :: c.lines.flatMap Line.tokens⟩ var =
        some (if c.valuesOf (cstr var) = [] then none else some (c.valuesOf (cstr var))) := by
  obtain ⟨vals, hlookup, hvals⟩ := lookup_print c var
  rw [firstText, allTexts, hlookup]
  cases vals with
  | nil =>
      have hnone : c.valuesOf (cstr var) = [] := (Option.some.inj hvals).symm
      rw [hnone]
      exact ⟨rfl, rfl⟩
  | cons v vals =>
      obtain ⟨w, hw, hrest⟩ := Option.bind_eq_some_iff.mp ((List.mapM_cons ..).symm.trans hvals)
      obtain ⟨ws, hws, heq⟩ := Option.bind_eq_some_iff.mp hrest
      have hcons : c.valuesOf (cstr var) = w :: ws := (Option.some.inj heq).symm
      have hall : (v :: vals).mapM textOf = some (w :: ws) := by rw [← hcons, hvals]
      rw [hcons]
      exact ⟨by simp [hw], by simp [hall]⟩

theorem settings_print (c : ConfigText) (line : Bytes) :
    settings line (some c.print) = some ⟨(c.valuesOf destIpVar).head?, (c.valuesOf destPortVar).head?,
      if c.valuesOf devicesVar = [] then none else some (c.valuesOf devicesVar)⟩ := by
  have hip := (texts_print c destIpVar).1
  have hport := (texts_print c destPortVar).1
  have hdevices := (texts_print c devicesVar).2
  have hcstr : cstr destIpVar = destIpVar ∧ cstr destPortVar = destPortVar ∧ cstr devicesVar = devicesVar := by decide
  rw [hcstr.1] at hip
  rw [hcstr.2.1] at hport
  rw [hcstr.2.2] at hdevices
  rw [settings, loadTokens_print]
  show (firstText _ destIpVar >>= _) = _
  rw [hip, hport, hdevices]
  rfl

/-! ## What is written -/

/-- The values of a printed file hold no NUL. -/
theorem nulFree_valuesOf {c : ConfigText} {var w : Bytes} (h : w ∈ c.valuesOf var) : NulFree w := by
  obtain ⟨i, -, hw⟩ := List.mem_flatMap.mp h
  cases i with
  | blank k => cases hw
  | scalar k n gap v =>
      rw [Item.valuesOf] at hw
      split at hw
      · rw [List.mem_singleton.mp hw]
        exact plain_nulFree v.plain
      · cases hw
  | list k n gap t es close =>
      rw [Item.valuesOf] at hw
      split at hw
      · obtain ⟨e, -, rfl⟩ := List.mem_map.mp hw
        exact plain_nulFree e.value.plain
      · cases hw

namespace Settings

/-- Names that fit are where they belong when all of them have been written. -/
theorem storeNames_holds {b b' : Block size} {i : Nat} {names : List Bytes} (h : storeNames b i names = some b')
    (hfit : ∀ w ∈ names, w.length < 64) {k : Nat} {w : Bytes} (hw : names[k]? = some w) :
    b'.Holds (deviceNameAt (i + k)) w := by
  induction names generalizing b i k with
  | nil => simp at hw
  | cons v names ih =>
      obtain ⟨b₁, hstore, hnext⟩ := Option.bind_eq_some_iff.mp h
      cases k with
      | zero =>
          cases hw
          have hlen : w.length < 64 := hfit w List.mem_cons_self
          -- the names behind it start at the next element
          exact (holds_store hstore).frame fun j _ hj => storeNames_get hnext (by unfold deviceNameAt at hj ⊢; omega)
      | succ k =>
          have hrest := ih hnext (fun u hu => hfit u (List.mem_cons_of_mem v hu)) hw
          rwa [Nat.add_assoc, Nat.add_comm 1 k] at hrest

end Settings

/-! ## The loaded config -/

/-- The file gives these values, and they fit. -/
structure Sets (c : ConfigText) (ip : Bytes) (port : Nat) (names : List Bytes) : Prop where
  ip_first  : (c.valuesOf destIpVar).head? = some ip
  ip_short  : ip.length < 16
  port_text : ∃ w, (c.valuesOf destPortVar).head? = some w ∧ Decimal w port
  port_fits : 1 ≤ port ∧ port ≤ 65535
  devices   : c.valuesOf devicesVar = names
  some_name : names ≠ []
  few       : names.length ≤ maxDevices
  short     : ∀ w ∈ names, w.length < 64

/-- **A file in the documented format is loaded as what it says**, in any block that `malloc` returns and with any
    bytes on the stack: the config has the address, the port and the device names, in order, that the file gives. -/
theorem loadConfig_sets {c : ConfigText} {ip : Bytes} {port : Nat} {names : List Bytes}
    (h : Sets c ip port names) (line : Bytes) (heap : Block size) :
    ∃ b, loadConfig line (some c.print) heap = some b ∧
      ofBlock b = ⟨ip, UInt16.ofNat port, names, UInt16.ofNat names.length⟩ := by
  obtain ⟨w, hw, hdec⟩ := h.port_text
  let s : Settings := ⟨some ip, some w, some names⟩
  have hsettings : settings line (some c.print) = some s := by
    rw [settings_print, h.ip_first, hw, h.devices, if_neg h.some_name]
  have hfew : names.length ≤ 8 := h.few
  have hipNul : NulFree ip := nulFree_valuesOf (List.mem_of_mem_head? h.ip_first)
  have hnamesNul : ∀ v ∈ names, NulFree v := fun v hv => nulFree_valuesOf (h.devices.symm ▸ hv)
  -- the address, then the port behind it
  have hfits : destIpAt + (ip ++ [0]).length ≤ size := by
    have hshort := h.ip_short
    rw [List.length_append, List.length_singleton]
    unfold destIpAt size
    omega
  obtain ⟨b₁, h₁⟩ := exists_store hfits heap
  have hint : IsInt port := by
    obtain ⟨-, hhigh⟩ := h.port_fits
    constructor <;> omega
  obtain ⟨b₂, h₂, htaken⟩ := takePort_taken (o := destPortAt) (by decide) hdec hint b₁
  have hport₂ : ((b₂.u16 destPortAt).toNat : Int) = port := by
    have hharmless : Harmless port (b₁.u16 destPortAt) := .inl (by have hp := h.port_fits; omega)
    have hexact := htaken.mpr hharmless
    rwa [Taken, if_pos (by have hp := h.port_fits; omega)] at hexact
  -- the names, then their number
  have hin : Settings.NamesFit 0 names := by
    intro k v hv
    have hk : k < names.length := (List.getElem?_eq_some_iff.mp hv).1
    have hlen : v.length < 64 := h.short v (List.mem_of_getElem? hv)
    unfold deviceNameAt size
    omega
  obtain ⟨b₃, h₃⟩ := Option.isSome_iff_exists.mp (Settings.storeNames_isSome (b := b₂) |>.mpr hin)
  obtain ⟨b, hb⟩ := exists_store (s := toLe 2 names.length) (o := numDevicesAt) (by rw [toLe_length]; decide) b₃
  have hdevices : s.storeDevices b₂ = some b := by
    show (Settings.storeNames b₂ 0 names >>= _) = _
    rw [h₃]
    exact hb
  refine ⟨b, ?_, ?_⟩
  · rw [loadConfig_eq, hsettings]
    show ((heap.store destIpAt (ip ++ [0])).bind fun b => (takePort destPortAt w b).bind s.storeDevices) = _
    rw [h₁, Option.bind_some, h₂, Option.bind_some, hdevices]
  · have hip : b.str destIpAt = ip := by
      have hbefore : ∀ j, j ≤ destIpAt + ip.length → j < destPortAt := fun j hj =>
        Nat.lt_of_le_of_lt hj (by rw [destIpAt, Nat.zero_add]; exact h.ip_short)
      have h₂' : s.storeDestPort b₁ = some b₂ := h₂
      have hip₂ : b₂.Holds destIpAt ip := (holds_store h₁).frame fun j _ hj =>
        Settings.storeDestPort_get h₂' fun _ => .inl (hbefore j hj)
      have hip₃ : b.Holds destIpAt ip := hip₂.frame fun j _ hj =>
        Settings.storeDevices_get hdevices (.inr (Nat.lt_trans (hbefore j hj) (by decide)))
      exact hip₃.str hipNul
    have hport : b.u16 destPortAt = UInt16.ofNat port := by
      have hkeep : b.u16 destPortAt = b₂.u16 destPortAt := by
        rw [u16_eq (by decide), u16_eq (by decide), Settings.storeDevices_get hdevices (.inr (by decide)),
          Settings.storeDevices_get hdevices (.inr (by decide))]
      apply UInt16.toNat_inj.mp
      rw [hkeep, UInt16.toNat_ofNat']
      have hp := h.port_fits
      omega
    have hnum : b.u16 numDevicesAt = UInt16.ofNat names.length := u16_store hb
    have hcount : (b.u16 numDevicesAt).toNat = names.length := by
      rw [hnum, UInt16.toNat_ofNat']
      omega
    have hname : ∀ k v, names[k]? = some v → b.str (deviceNameAt k) = v := by
      intro k v hv
      have hk : k < names.length := (List.getElem?_eq_some_iff.mp hv).1
      have hlen : v.length < 64 := h.short v (List.mem_of_getElem? hv)
      have hholds := Settings.storeNames_holds h₃ h.short hv
      rw [Nat.zero_add] at hholds
      exact (hholds.frame fun j _ hj =>
        store_get_of_lt hb (by unfold deviceNameAt at hj; unfold numDevicesAt; omega)).str
          (hnamesNul v (List.mem_of_getElem? hv))
    rw [ofBlock, hcount, Config.mk.injEq]
    refine ⟨hip, hport, ?_, hnum⟩
    apply List.ext_getElem?
    intro k
    by_cases hk : k < names.length
    · simp [hk, hname k names[k] (List.getElem?_eq_getElem hk)]
    · simp [hk]

end Config

end IOSwitch
