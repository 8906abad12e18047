import IOSwitch.Config.Load
import IOSwitch.Tokenizer.Texts

/-!
# `Config.Heap` — what is left of the heap in a loaded config

`load_config` does not clear its block, while `create_server` does clear its own. What a setting does not write keeps
what was there, and the daemon goes on with it. `depends_on_file_iff` says exactly which files leave nothing of it
in the fields the sender uses: those that give all settings, and a port that is not 0 (or an address so long that it
runs over the port).

Two runs are compared from any two contents of the block. Their writes are the same (`loadConfig_eq`), so that what
is written is the same (`Same`, `SameStr`), and what is not written can differ.

## Contents
- **Texts.** They are shorter than `val`, and a list of values is not empty (`settings_spec`).
- **The writes.** `storeNames` and its frame.
- **What determines a config.** `Settings.Determines`, `Settings.same_config`, `Settings.determines_of_same`.
- `depends_on_file_iff`, `old_heap`.
-/

namespace IOSwitch

open Lib Tokenizer Block

namespace Config

/-! ## Texts -/

theorem textOf_short {t : Token} {w : Bytes} (hval : t.val.length = maxTokLen) (h : textOf t = some w) :
    w.length < maxTokLen := by
  unfold textOf at h
  cases htext : text t with
  | error e =>
      rw [htext] at h
      cases h
  | ok w' =>
      rw [htext] at h
      cases h
      exact text_short hval htext

/-- What `get_variable` returns is a list of tokens, and not an empty one. -/
theorem lookup_some {t : Tokenizer} {var : Bytes} {vals : List Token} (h : lookup t var = some (some vals)) :
    vals ≠ [] ∧ ∀ v ∈ vals, v ∈ t.tokens := by
  unfold lookup at h
  cases hvar : getVariable t var with
  | error e =>
      rw [hvar] at h
      cases h
  | ok found =>
      rw [hvar] at h
      cases h
      obtain ⟨values, -, hfound⟩ := exists_of_bind_ok hvar
      split at hfound
      · cases hfound
      · next hlen =>
        cases hfound
        refine ⟨fun hnil => hlen (by rw [hnil]; rfl), ?_⟩
        intro v hv
        exact (getVariable_mem hvar v hv).1

/-- The address is shorter than `val`. -/
theorem firstText_short {t : Tokenizer} {var w : Bytes} (ht : Sized t.tokens)
    (h : firstText t var = some (some w)) : w.length < maxTokLen := by
  unfold firstText at h
  cases hvar : lookup t var with
  | none => simp [hvar] at h
  | some found =>
      cases found with
      | none => simp [hvar] at h
      | some vals =>
          cases hv : vals.head? with
          | none => simp [hvar, hv] at h
          | some v =>
              cases hw : textOf v with
              | none => simp [hvar, hv, hw] at h
              | some w' =>
                  have heq : w' = w := by simpa [hvar, hv, hw] using h
                  have hmem : v ∈ t.tokens := (lookup_some hvar).2 v (List.mem_of_mem_head? hv)
                  exact heq ▸ textOf_short (ht v hmem) hw

theorem allTexts_ne_nil {t : Tokenizer} {var : Bytes} {ws : List Bytes} (h : allTexts t var = some (some ws)) :
    ws ≠ [] := by
  unfold allTexts at h
  cases hvar : lookup t var with
  | none => simp [hvar] at h
  | some found =>
      cases found with
      | none => simp [hvar] at h
      | some vals =>
          cases hws : vals.mapM textOf with
          | none => simp [hvar, hws] at h
          | some ws' =>
              have heq : ws' = ws := by simpa [hvar, hws] using h
              have hlen : vals.length = ws.length := by simpa [heq] using congrArg List.length (map_of_mapM hws)
              intro hnil
              exact (lookup_some hvar).1 (List.length_eq_zero_iff.mp (by rw [hlen, hnil]; rfl))

/-- The settings of a file: an address is shorter than `val`, and there is a device if there are any. -/
theorem settings_spec {line : Bytes} {file : Option Bytes} {s : Settings} (h : settings line file = some s) :
    (∀ ip ∈ s.destIp, ip.length < maxTokLen) ∧ ∀ names ∈ s.devices, names ≠ [] := by
  unfold settings at h
  cases hload : loadTokens line file with
  | error e => simp [hload, Except.toOption] at h
  | ok t =>
      simp only [hload, Except.toOption, Option.bind_eq_bind, Option.bind_some, Option.bind_eq_some_iff] at h
      obtain ⟨ip, hip, port, -, devices, hdev, h⟩ := h
      cases h
      constructor
      · rintro w rfl
        exact firstText_short (loadTokens_sized hload) hip
      · rintro names rfl
        exact allTexts_ne_nil hdev

namespace Settings

/-! ## The writes -/

/-- The names, from the `i`-th field on, stay within the block. -/
def NamesFit (i : Nat) (names : List Bytes) : Prop :=
  ∀ k w, names[k]? = some w → deviceNameAt (i + k) + w.length < size

theorem namesFit_cons {i : Nat} {w : Bytes} {names : List Bytes} :
    NamesFit i (w :: names) ↔ deviceNameAt i + w.length < size ∧ NamesFit (i + 1) names := by
  constructor
  · intro h
    refine ⟨h 0 w rfl, ?_⟩
    intro k v hv
    have hk := h (k + 1) v hv
    rwa [Nat.add_comm k 1, ← Nat.add_assoc] at hk
  · rintro ⟨hw, hnames⟩ k v hv
    cases k with
    | zero =>
        cases hv
        exact hw
    | succ k =>
        have hk := hnames k v hv
        rwa [Nat.add_assoc, Nat.add_comm 1 k] at hk

/-- The names are written if they fit, whatever is in the block. -/
theorem storeNames_isSome {b : Block size} {i : Nat} {names : List Bytes} :
    (storeNames b i names).isSome ↔ NamesFit i names := by
  induction names generalizing b i with
  | nil => exact ⟨fun _ k w hw => by simp at hw, fun _ => rfl⟩
  | cons w names ih =>
      rw [namesFit_cons, storeNames]
      cases hstore : b.store (deviceNameAt i) (w ++ [0]) with
      | none =>
          have hfits : ¬ deviceNameAt i + (w ++ [0]).length ≤ size := by rw [← store_isSome (b := b), hstore]; simp
          rw [List.length_append, List.length_singleton] at hfits
          refine ⟨fun h => by simp at h, fun h => absurd h.1 (by omega)⟩
      | some b' =>
          have hfits := store_fits hstore
          rw [List.length_append, List.length_singleton] at hfits
          show (storeNames b' (i + 1) names).isSome ↔ _
          rw [ih]
          exact ⟨fun h => ⟨by omega, h⟩, fun h => h.2⟩

/-- Nothing before the first of them is touched. -/
theorem storeNames_get {b b' : Block size} {i j : Nat} {names : List Bytes} (h : storeNames b i names = some b')
    (hj : j < deviceNameAt i) : b'.get j = b.get j := by
  induction names generalizing b i with
  | nil =>
      cases h
      rfl
  | cons w names ih =>
      obtain ⟨b₁, hstore, h⟩ := Option.bind_eq_some_iff.mp h
      rw [ih h (by unfold deviceNameAt at hj ⊢; omega), store_get_of_lt hstore hj]

section TwoRuns

variable {b c b' c' : Block size} {i : Nat} {names : List Bytes} (hb : storeNames b i names = some b')
  (hc : storeNames c i names = some c')
include hb hc

/-- Both runs write the same names, and what was the same before stays the same. -/
theorem storeNames_same :
    (∀ j k, Same b c j k → Same b' c' j k) ∧ (∀ o, SameStr b c o → SameStr b' c' o) ∧
      ∀ k, k < names.length → SameStr b' c' (deviceNameAt (i + k)) := by
  induction names generalizing b c i with
  | nil =>
      cases hb
      cases hc
      exact ⟨fun _ _ h => h, fun _ h => h, fun k hk => absurd hk (Nat.not_lt_zero k)⟩
  | cons w names ih =>
      obtain ⟨b₁, hstoreb, hb⟩ := Option.bind_eq_some_iff.mp hb
      obtain ⟨c₁, hstorec, hc⟩ := Option.bind_eq_some_iff.mp hc
      obtain ⟨hsame, hstr, hnew⟩ := ih hb hc
      refine ⟨fun j k h => ?_, fun o h => ?_, fun k hk => ?_⟩
      · exact hsame j k (Same.store hstoreb hstorec h)
      · exact hstr o (SameStr.store hstoreb hstorec h)
      · cases k with
        | zero => exact hstr _ (sameStr_store hstoreb hstorec)
        | succ k =>
            have hk' := hnew k (by simpa using hk)
            rwa [Nat.add_assoc, Nat.add_comm 1 k] at hk'

end TwoRuns

/-! ## What determines a config -/

/-- The file sets the port. -/
def SetsPort (s : Settings) : Prop := ∃ w ∈ s.destPort, atoi w ≠ 0

/-- Nothing of the block's old contents is left: the file gives an address, the port too or an address that runs
    over its two bytes, and devices whose names stay within the block. -/
structure Determines (s : Settings) : Prop where
  address : ∃ ip ∈ s.destIp, s.SetsPort ∨ destPortAt < ip.length
  names   : ∃ names ∈ s.devices, NamesFit 0 names

/-- The first two writes settle the port, and the address but for the end of one that runs into the port. -/
theorem same_address {s : Settings} (h : s.Determines) (hshort : ∀ ip ∈ s.destIp, ip.length < maxTokLen)
    (b c : Block size) :
    ∃ b' c', (s.storeDestIp b).bind s.storeDestPort = some b' ∧ (s.storeDestIp c).bind s.storeDestPort = some c' ∧
      Same b' c' destPortAt (destPortAt + 2) ∧ (SameStr b' c' destIpAt ∨ Same b' c' destIpAt (destPortAt + 2)) := by
  obtain ⟨ip, hip, hport⟩ := h.address
  have hlen : ip.length < maxTokLen := hshort ip hip
  have hfits : destIpAt + (ip ++ [0]).length ≤ size := by
    unfold maxTokLen at hlen
    unfold destIpAt size
    rw [List.length_append, List.length_singleton]
    omega
  obtain ⟨b₁, hb₁⟩ := exists_store hfits b
  obtain ⟨c₁, hc₁⟩ := exists_store hfits c
  have hstoreIp : ∀ d : Block size, s.storeDestIp d = d.store destIpAt (ip ++ [0]) := by
    intro d
    rw [storeDestIp, Option.mem_def.mp hip]
  have hstr₁ : SameStr b₁ c₁ destIpAt := sameStr_store hb₁ hc₁
  have hsame₁ : Same b₁ c₁ destIpAt (ip.length + 1) := by
    have hsame := same_store hb₁ hc₁
    rwa [List.length_append, List.length_singleton, destIpAt, Nat.zero_add] at hsame
  rw [hstoreIp, hstoreIp, hb₁, hc₁, Option.bind_some, Option.bind_some]
  by_cases hset : s.SetsPort
  · obtain ⟨w, hw, hnum⟩ := hset
    have hstorePort : ∀ d : Block size, s.storeDestPort d = d.store destPortAt (toLe 2 (atoi w).toNat) := by
      intro d
      rw [storeDestPort, Option.mem_def.mp hw]
      exact if_pos hnum
    have hfits₂ : destPortAt + (toLe 2 (atoi w).toNat).length ≤ size := by rw [toLe_length]; decide
    obtain ⟨b₂, hb₂⟩ := exists_store hfits₂ b₁
    obtain ⟨c₂, hc₂⟩ := exists_store hfits₂ c₁
    have hword : Same b₂ c₂ destPortAt (destPortAt + 2) := by
      have hsame := same_store hb₂ hc₂
      rwa [toLe_length] at hsame
    refine ⟨b₂, c₂, by rw [hstorePort, hb₂], by rw [hstorePort, hc₂], hword, ?_⟩
    by_cases hlong : ip.length < destPortAt
    · -- the NUL of the address is before the port
      left
      refine ⟨ip.length, Nat.zero_le _, by unfold size; unfold maxTokLen at hlen; omega, ?_, ?_⟩
      · exact Same.store hb₂ hc₂ hsame₁
      · rw [store_get_of_lt hb₂ hlong, store_get hb₁, if_pos (by unfold destIpAt; simp)]
        simp [destIpAt]
    · right
      refine Same.append (Same.store hb₂ hc₂ (hsame₁.mono (Nat.le_refl _) ?_)) hword
      omega
  · have hlong : destPortAt < ip.length := hport.resolve_left hset
    have hkeep : ∀ d : Block size, s.storeDestPort d = some d := by
      intro d
      cases hw : s.destPort with
      | none => rw [storeDestPort, hw]
      | some w =>
          have hzero : ¬ atoi w ≠ 0 := fun hnum => hset ⟨w, hw, hnum⟩
          rw [storeDestPort, hw]
          exact if_neg hzero
    refine ⟨b₁, c₁, hkeep b₁, hkeep c₁, hsame₁.mono (Nat.zero_le _) (by omega), Or.inl hstr₁⟩

/-- The last write settles the rest. -/
theorem same_devices {s : Settings} (h : s.Determines) (hne : ∀ names ∈ s.devices, names ≠ []) {b c : Block size}
    (hport : Same b c destPortAt (destPortAt + 2))
    (hip : SameStr b c destIpAt ∨ Same b c destIpAt (destPortAt + 2)) :
    ∃ b' c', s.storeDevices b = some b' ∧ s.storeDevices c = some c' ∧ ofBlock b' = ofBlock c' := by
  obtain ⟨names, hnames, hfit⟩ := h.names
  have hpos : 0 < names.length := List.length_pos_iff.mpr (hne names hnames)
  -- a name that fits starts within the block, so there are at most nine
  have hfew : names.length ≤ 9 := by
    have hlast := hfit (names.length - 1) names[names.length - 1] (List.getElem?_eq_getElem _)
    unfold deviceNameAt size at hlast
    omega
  obtain ⟨b₁, hb₁⟩ := Option.isSome_iff_exists.mp (storeNames_isSome (b := b) |>.mpr hfit)
  obtain ⟨c₁, hc₁⟩ := Option.isSome_iff_exists.mp (storeNames_isSome (b := c) |>.mpr hfit)
  obtain ⟨hkeep, hkeepStr, hnew⟩ := storeNames_same hb₁ hc₁
  -- the number of devices ends with a zero byte, as a string does
  have hword : toLe 2 names.length = [UInt8.ofNat names.length] ++ [0] := by
    have hhigh : names.length / 256 = 0 := by omega
    rw [toLe, toLe, toLe, hhigh]
    rfl
  have hfits₂ : numDevicesAt + (toLe 2 names.length).length ≤ size := by rw [toLe_length]; decide
  obtain ⟨b₂, hb₂⟩ := exists_store hfits₂ b₁
  obtain ⟨c₂, hc₂⟩ := exists_store hfits₂ c₁
  have hnum : Same b₂ c₂ numDevicesAt (numDevicesAt + 2) := by
    have hsame := same_store hb₂ hc₂
    rwa [toLe_length] at hsame
  have hstr : ∀ o, SameStr b₁ c₁ o → SameStr b₂ c₂ o := by
    intro o ho
    rw [hword] at hb₂ hc₂
    exact ho.store hb₂ hc₂
  have haddr : SameStr b₂ c₂ destIpAt := by
    refine hstr _ ?_
    rcases hip with hip | hip
    · exact hkeepStr _ hip
    · exact SameStr.of_same (hkeep _ _ hip) (by decide) (hnew 0 hpos)
  have hport₂ : Same b₂ c₂ destPortAt (destPortAt + 2) := Same.store hb₂ hc₂ (hkeep _ _ hport)
  have hcount : (b₂.u16 numDevicesAt).toNat = names.length := by
    rw [Block.u16_eq (by decide), store_get hb₂, store_get hb₂, hword, if_pos (by simp), if_pos (by simp)]
    simp
    omega
  refine ⟨b₂, c₂, ?_, ?_, ?_⟩
  · rw [storeDevices, Option.mem_def.mp hnames]
    show (storeNames b 0 names >>= _) = _
    rw [hb₁]
    exact hb₂
  · rw [storeDevices, Option.mem_def.mp hnames]
    show (storeNames c 0 names >>= _) = _
    rw [hc₁]
    exact hc₂
  · have hnames₂ : ∀ k, k < names.length → b₂.str (deviceNameAt k) = c₂.str (deviceNameAt k) := by
      intro k hk
      have hk' := hnew k hk
      rw [Nat.zero_add] at hk'
      exact (hstr _ hk').str_eq
    have hu16 : b₂.u16 numDevicesAt = c₂.u16 numDevicesAt := hnum.u16_eq (by decide)
    unfold ofBlock
    rw [haddr.str_eq, hport₂.u16_eq (by decide), ← hu16, Config.mk.injEq]
    refine ⟨rfl, rfl, List.map_congr_left fun k hk => hnames₂ k ?_, rfl⟩
    rw [← hcount]
    exact List.mem_range.mp hk

/-- **Sufficient**: what the file gives is the whole config. -/
theorem same_config {s : Settings} (h : s.Determines) (hshort : ∀ ip ∈ s.destIp, ip.length < maxTokLen)
    (hne : ∀ names ∈ s.devices, names ≠ []) (b c : Block size) :
    ∃ b' c', s.store b = some b' ∧ s.store c = some c' ∧ ofBlock b' = ofBlock c' := by
  obtain ⟨b₁, c₁, hb₁, hc₁, hport, hip⟩ := same_address h hshort b c
  obtain ⟨b', c', hb', hc', hsame⟩ := same_devices h hne hport hip
  have hstore : ∀ d, s.store d = ((s.storeDestIp d).bind s.storeDestPort).bind s.storeDevices :=
    fun d => (Option.bind_assoc _ _ _).symm
  exact ⟨b', c', by rw [hstore, hb₁]; exact hb', by rw [hstore, hc₁]; exact hc', hsame⟩

section Frame

variable {s : Settings} {b b' : Block size} {j : Nat}

theorem storeDestIp_get (h : s.storeDestIp b = some b') (hj : ∀ ip ∈ s.destIp, ip.length < j) :
    b'.get j = b.get j := by
  unfold storeDestIp at h
  cases hip : s.destIp with
  | none =>
      rw [hip] at h
      cases h
      rfl
  | some ip =>
      rw [hip] at h
      have hlen : ip.length < j := hj ip hip
      exact store_get_of_le h (by rw [List.length_append, List.length_singleton, destIpAt]; omega)

theorem storeDestPort_get (h : s.storeDestPort b = some b')
    (hj : s.SetsPort → j < destPortAt ∨ destPortAt + 2 ≤ j) : b'.get j = b.get j := by
  unfold storeDestPort at h
  cases hw : s.destPort with
  | none =>
      rw [hw] at h
      cases h
      rfl
  | some w =>
      rw [hw] at h
      dsimp only at h
      split at h
      · next hnum =>
        rcases hj ⟨w, hw, hnum⟩ with hj | hj
        · exact store_get_of_lt h hj
        · exact store_get_of_le h (by rwa [toLe_length])
      · cases h
        rfl

theorem storeDevices_get (h : s.storeDevices b = some b') (hj : s.devices = none ∨ j < deviceNameAt 0) :
    b'.get j = b.get j := by
  unfold storeDevices at h
  cases hnames : s.devices with
  | none =>
      rw [hnames] at h
      cases h
      rfl
  | some names =>
      rw [hnames] at h
      have hj' : j < deviceNameAt 0 := hj.resolve_left (by rw [hnames]; simp)
      obtain ⟨b₁, hstore, h⟩ := Option.bind_eq_some_iff.mp h
      have hlow : j < numDevicesAt := Nat.lt_trans hj' (by decide)
      rw [store_get_of_lt h hlow, storeNames_get hstore hj']

/-- A byte that no setting reaches is left of the old contents. -/
theorem store_get (h : s.store b = some b') (hip : ∀ ip ∈ s.destIp, ip.length < j)
    (hport : s.SetsPort → j < destPortAt ∨ destPortAt + 2 ≤ j) (hdev : s.devices = none ∨ j < deviceNameAt 0) :
    b'.get j = b.get j := by
  obtain ⟨b₁, h₁, h⟩ := Option.bind_eq_some_iff.mp h
  obtain ⟨b₂, h₂, h₃⟩ := Option.bind_eq_some_iff.mp h
  rw [storeDevices_get h₃ hdev, storeDestPort_get h₂ hport, storeDestIp_get h₁ hip]

end Frame

theorem fill_get {x : UInt8} {j : Nat} (hj : j < size) : (Block.fill size x).get j = x := by
  unfold Block.fill Block.get
  rw [List.getD_eq_getElem _ _ (by rw [List.length_replicate]; exact hj), List.getElem_replicate]

/-- **Necessary**: otherwise a block of zeros and one of ones make a difference. -/
theorem determines_of_same {s : Settings} (hshort : ∀ ip ∈ s.destIp, ip.length < maxTokLen)
    (h : ∀ b c, ∃ b' c', s.store b = some b' ∧ s.store c = some c' ∧ ofBlock b' = ofBlock c') : s.Determines := by
  obtain ⟨b, c, hb, hc, hsame⟩ := h (.fill size 0) (.fill size 1)
  rw [ofBlock, ofBlock, Config.mk.injEq] at hsame
  obtain ⟨hsameIp, hsamePort, -, hsameNum⟩ := hsame
  -- a byte that is not reached shows the difference
  have hdiffer : ∀ j, j < size → (∀ ip ∈ s.destIp, ip.length < j) →
      (s.SetsPort → j < destPortAt ∨ destPortAt + 2 ≤ j) → (s.devices = none ∨ j < deviceNameAt 0) →
      b.get j = 0 ∧ c.get j = 1 := by
    intro j hj hip hport hdev
    rw [store_get hb hip hport hdev, store_get hc hip hport hdev, fill_get hj, fill_get hj]
    exact ⟨rfl, rfl⟩
  constructor
  · cases hip : s.destIp with
    | none =>
        exfalso
        obtain ⟨hb0, hc0⟩ := hdiffer destIpAt (by decide) (by simp [hip]) (fun _ => Or.inl (by decide))
          (Or.inr (by decide))
        rw [Block.str_eq (b := b) (by decide), Block.str_eq (b := c) (by decide), hb0, hc0] at hsameIp
        simp at hsameIp
    | some ip =>
        refine ⟨ip, rfl, or_iff_not_imp_left.mpr fun hset => ?_⟩
        by_contra hlong
        obtain ⟨hb17, hc17⟩ := hdiffer (destPortAt + 1) (by decide) (by simp only [hip, Option.mem_some_iff]; rintro _ rfl; omega)
          (fun h => absurd h hset) (Or.inr (by decide))
        have hhigh := Block.u16_high hsamePort (by decide)
        rw [hb17, hc17] at hhigh
        cases hhigh
  · cases hdev : s.devices with
    | none =>
        exfalso
        obtain ⟨hb531, hc531⟩ := hdiffer (numDevicesAt + 1) (by decide)
          (fun ip hip => Nat.lt_trans (hshort ip hip) (by decide)) (fun _ => Or.inr (by decide)) (Or.inl hdev)
        have hhigh := Block.u16_high hsameNum (by decide)
        rw [hb531, hc531] at hhigh
        cases hhigh
    | some names =>
        refine ⟨names, rfl, ?_⟩
        obtain ⟨b₁, -, hb⟩ := Option.bind_eq_some_iff.mp hb
        obtain ⟨b₂, -, hb⟩ := Option.bind_eq_some_iff.mp hb
        rw [storeDevices, hdev] at hb
        obtain ⟨b₃, hb, -⟩ := Option.bind_eq_some_iff.mp hb
        exact storeNames_isSome.mp (Option.isSome_iff_exists.mpr ⟨b₃, hb⟩)

end Settings

/-- **`load_config` depends on the file only** iff reading the file is defined and its settings determine the
    config: then, and only then, it makes the same `Config` of any two blocks that `malloc` may return. -/
theorem depends_on_file_iff (line : Bytes) (file : Option Bytes) :
    (∀ heap heap' : Block size, ∃ config config', loadConfig line file heap = some config ∧
      loadConfig line file heap' = some config' ∧ ofBlock config = ofBlock config') ↔
    ∃ s, settings line file = some s ∧ s.Determines := by
  constructor
  · intro h
    cases hs : settings line file with
    | none =>
        obtain ⟨config, -, hload, -, -⟩ := h (.fill size 0) (.fill size 0)
        rw [loadConfig_eq, hs] at hload
        cases hload
    | some s =>
        refine ⟨s, rfl, Settings.determines_of_same (settings_spec hs).1 fun b c => ?_⟩
        have hbc := h b c
        rwa [loadConfig_eq, loadConfig_eq, hs] at hbc
  · rintro ⟨s, hs, hdet⟩ heap heap'
    rw [loadConfig_eq, loadConfig_eq, hs]
    exact Settings.same_config hdet (settings_spec hs).1 (settings_spec hs).2 heap heap'

/-- A file that cannot be read leaves the block as it is: the sender's address, its port and the number of its devices
    are what was on the heap before. -/
theorem old_heap :
    ¬ ∀ line file, ∀ heap heap' : Block size, ∃ config config', loadConfig line file heap = some config ∧
      loadConfig line file heap' = some config' ∧ ofBlock config = ofBlock config' := by
  intro h
  obtain ⟨config, config', hload, hload', hsame⟩ := h [] none (.fill size 0) (.fill size 1)
  cases hload
  cases hload'
  have hport : (ofBlock (.fill size 0)).destPort = (ofBlock (.fill size 1)).destPort := congrArg Config.destPort hsame
  exact absurd hport (by decide)

end Config

end IOSwitch
