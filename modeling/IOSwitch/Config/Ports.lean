import IOSwitch.Config.Ctl
import IOSwitch.Config.Heap

/-!
# `Config.Ports` — the numbers of ports

A port is written in the file as a number, `atoi` makes an `int` of it, and the assignment to the field cuts that down
to 16 bits. The code asks only whether the `int` is 0. `Decimal` says that a text is a number in decimal digits,
`takePort_taken` what the assignment makes of it, and `ports_iff` which numbers are taken exactly or not at all, for
all three ports.
-/

namespace IOSwitch

open Lib Tokenizer Block

namespace Config

/-! ## Numbers in decimal digits -/

/-- `w` is the number `n` in decimal digits, with a `-` in front if it is negative. -/
inductive Decimal : Bytes → Int → Prop where
  | digits {ds : Bytes} (hne : ds ≠ []) (hds : ∀ d ∈ ds, isDigit d = true) : Decimal ds (number ds)
  | minus {ds : Bytes} (hne : ds ≠ []) (hds : ∀ d ∈ ds, isDigit d = true) : Decimal (45 :: ds) (-(number ds : Int))

section Digits

variable {d : UInt8}

theorem isDigit_iff : isDigit d = true ↔ 48 ≤ d.toNat ∧ d.toNat ≤ 57 := by
  simp [isDigit, UInt8.le_iff_toNat_le]

/-- A digit is neither a blank nor a sign. -/
theorem digit_ne (h : isDigit d = true) : isSpace d = false ∧ d ≠ 45 ∧ d ≠ 43 := by
  rw [isDigit_iff] at h
  refine ⟨?_, ?_, ?_⟩
  · rw [← Bool.not_eq_true]
    intro hspace
    rcases of_decide_eq_true hspace with rfl | ⟨-, hle⟩
    · exact absurd h.1 (by decide)
    · have hle' : d.toNat ≤ 13 := UInt8.le_iff_toNat_le.mp hle
      omega
  · rintro rfl
    exact absurd h.1 (by decide)
  · rintro rfl
    exact absurd h.1 (by decide)

end Digits

/-- `strtol` reads the number. -/
theorem strtol_decimal {w : Bytes} {n : Int} (h : Decimal w n) : strtol w = clampLong n := by
  cases h with
  | digits hne hds =>
      obtain ⟨d, ds, rfl⟩ := List.exists_cons_of_ne_nil hne
      obtain ⟨hspace, hminus, hplus⟩ := digit_ne (hds d List.mem_cons_self)
      rw [strtol, List.dropWhile_cons_of_neg (by rw [hspace]; exact Bool.false_ne_true)]
      split
      · next heq => exact absurd (List.cons.inj heq).1 hminus
      · next heq => exact absurd (List.cons.inj heq).1 hplus
      · rfl
  | @minus ds hne hds =>
      rw [strtol, List.dropWhile_cons_of_neg (by decide)]
      rfl

/-- The numbers of an `int`. -/
def IsInt (n : Int) : Prop := -2147483648 ≤ n ∧ n < 2147483648

theorem atoi_decimal {w : Bytes} {n : Int} (h : Decimal w n) (hn : IsInt n) : atoi w = BitVec.ofInt 32 n := by
  obtain ⟨hlo, hhi⟩ := hn
  rw [atoi, strtol_decimal h, clampLong, longMin, longMax, if_neg (by omega), if_neg (by omega)]

/-! ## The field -/

/-- The field, from `before` to `after`, has taken the number `n` exactly or not at all. -/
def Taken (n : Int) (before after : UInt16) : Prop :=
  if 1 ≤ n ∧ n ≤ 65535 then (after.toNat : Int) = n else after = before

/-- The number is a port or 0, or its low 16 bits are what the field holds. -/
def Harmless (n : Int) (before : UInt16) : Prop := (0 ≤ n ∧ n ≤ 65535) ∨ (before.toNat : Int) = n % 65536

/-- The low bits of an `int`. -/
theorem low_ofInt (n : Int) : ((UInt16.ofNat (BitVec.ofInt 32 n).toNat).toNat : Int) = n % 65536 := by
  rw [UInt16.toNat_ofNat', BitVec.toNat_ofInt]
  omega

theorem ofInt_eq_zero {n : Int} (hn : IsInt n) : BitVec.ofInt 32 n = 0 ↔ n = 0 := by
  obtain ⟨hlo, hhi⟩ := hn
  rw [← BitVec.toNat_inj, BitVec.toNat_ofInt]
  simp
  omega

/-- `if ((temp_port = atoi(w)) != 0) config->port = temp_port`, for the port at offset `o`. -/
def takePort {m : Nat} (o : Nat) (w : Bytes) (config : Block m) : Option (Block m) :=
  if atoi w ≠ 0 then config.store o (toLe 2 (atoi w).toNat) else some config

/-- **The assignment** takes the number exactly or not at all iff it is harmless. -/
theorem takePort_taken {m : Nat} {o : Nat} (ho : o + 2 ≤ m) {w : Bytes} {n : Int} (hw : Decimal w n) (hn : IsInt n)
    (before : Block m) :
    ∃ after, takePort o w before = some after ∧ (Taken n (before.u16 o) (after.u16 o) ↔ Harmless n (before.u16 o)) := by
  unfold takePort Taken Harmless
  rw [atoi_decimal hw hn]
  by_cases hzero : n = 0
  · -- 0 is not stored
    rw [if_neg (not_not.mpr ((ofInt_eq_zero hn).mpr hzero))]
    refine ⟨before, rfl, ?_⟩
    rw [if_neg (by omega)]
    exact ⟨fun _ => .inl (by omega), fun _ => rfl⟩
  · have hfits : o + (toLe 2 (BitVec.ofInt 32 n).toNat).length ≤ m := by rwa [toLe_length]
    obtain ⟨after, hafter⟩ := exists_store hfits before
    have hlow : ((after.u16 o).toNat : Int) = n % 65536 := by rw [u16_store hafter, low_ofInt]
    rw [if_pos (fun h => hzero ((ofInt_eq_zero hn).mp h))]
    refine ⟨after, hafter, ?_⟩
    split
    · next hport => exact ⟨fun _ => .inl (by omega), fun _ => by omega⟩
    · next hport =>
      rw [← UInt16.toNat_inj]
      omega

/-- The rest of the structure is as it was. -/
theorem takePort_frame {m : Nat} {o p : Nat} {w : Bytes} {before after : Block m} (h : takePort o w before = some after)
    (hp : p + 1 < m) (hdis : p + 2 ≤ o ∨ o + 2 ≤ p) : after.u16 p = before.u16 p := by
  unfold takePort at h
  split at h
  · exact u16_store_of_disjoint h hp (by rwa [toLe_length])
  · cases h
    rfl

/-- The port, if there is one. -/
def storePort {m : Nat} (o : Nat) (config : Block m) : Option Bytes → Option (Block m)
  | none   => some config
  | some w => takePort o w config

/-- A port fits, whatever it is. -/
theorem storePort_isSome {m : Nat} {o : Nat} (ho : o + 2 ≤ m) (config : Block m) (port : Option Bytes) :
    (storePort o config port).isSome := by
  cases port with
  | none => rfl
  | some w =>
      rw [storePort, takePort]
      split
      · exact store_isSome.mpr (by rwa [toLe_length])
      · rfl

theorem storePort_frame {m : Nat} {o p : Nat} {port : Option Bytes} {before after : Block m}
    (h : storePort o before port = some after) (hp : p + 1 < m) (hdis : p + 2 ≤ o ∨ o + 2 ≤ p) :
    after.u16 p = before.u16 p := by
  cases port with
  | none =>
      cases h
      rfl
  | some w => exact takePort_frame h hp hdis

/-! ## The loaders -/

section Loaders

variable {t : Tokenizer} {w : Bytes} {n : Int}

theorem parsePort_eq (t : Tokenizer) (var : Bytes) (o : Nat) (config : Block CtlConfig.size) :
    CtlConfig.parsePort t var o config = (firstText t var).bind (storePort o config) := by
  refine (lookup_firstText t var config fun w => takePort o w config).trans ?_
  refine congrArg _ (funext fun port => ?_)
  cases port <;> rfl

/-- `dest_port`. What is kept is what the field holds when its number is read. -/
theorem destPort_taken (hw : Decimal w n) (hn : IsInt n) (h : firstText t destPortVar = some (some w))
    {heap config : Block size} (hload : loadFrom t heap = some config) :
    ∃ before, loadDestIp t heap = some before ∧
      (Taken n (before.u16 destPortAt) (config.u16 destPortAt) ↔ Harmless n (before.u16 destPortAt)) ∧
      ((∀ ip, firstText t destIpVar = some (some ip) → ip.length < 16) →
        before.u16 destPortAt = heap.u16 destPortAt) := by
  obtain ⟨before, hip, hload⟩ := Option.bind_eq_some_iff.mp hload
  obtain ⟨after, hport, hdev⟩ := Option.bind_eq_some_iff.mp hload
  refine ⟨before, hip, ?_, fun hshort => ?_⟩
  · obtain ⟨after', hafter, htaken⟩ := @takePort_taken size destPortAt (by decide) w n hw hn before
    have htake : loadDestPort t before = takePort destPortAt w before := by
      rw [loadDestPort_eq t none none, h]
      rfl
    obtain rfl : after' = after := Option.some.inj (hafter.symm.trans (htake.symm.trans hport))
    -- the names are behind the port
    have hkept : config.u16 destPortAt = after'.u16 destPortAt := by
      rw [loadDevices_eq t none none] at hdev
      obtain ⟨devices, -, hdev⟩ := Option.bind_eq_some_iff.mp hdev
      have hin : destPortAt + 1 < size := by decide
      rw [u16_eq hin, u16_eq hin, Settings.storeDevices_get hdev (.inr (by decide)),
        Settings.storeDevices_get hdev (.inr (by decide))]
    rw [hkept]
    exact htaken
  · rw [loadDestIp_eq t none none] at hip
    obtain ⟨ip, hfirst, hstore⟩ := Option.bind_eq_some_iff.mp hip
    have hlt : ∀ j, 16 ≤ j → ∀ v ∈ ip, v.length < j := by
      rintro j hj v rfl
      exact Nat.lt_of_lt_of_le (hshort v hfirst) hj
    have hin : destPortAt + 1 < size := by decide
    rw [u16_eq hin, u16_eq hin, Settings.storeDestIp_get hstore (hlt _ (by decide)),
      Settings.storeDestIp_get hstore (hlt _ (by decide))]

/-- The stages of `parse_config`. Each of them leaves the fields of the others alone. -/
theorem parseTokens_eq (t : Tokenizer) (start config : Block CtlConfig.size) :
    CtlConfig.parseTokens t start = some config ↔ ∃ ip daemonPort sourcePort b c,
      firstText t CtlConfig.daemonIpVar = some ip ∧ CtlConfig.storeDaemonIp start ip = some b ∧
      firstText t CtlConfig.daemonPortVar = some daemonPort ∧ storePort CtlConfig.daemonPortAt b daemonPort = some c ∧
      firstText t CtlConfig.sourcePortVar = some sourcePort ∧
      storePort CtlConfig.sourcePortAt c sourcePort = some config := by
  unfold CtlConfig.parseTokens CtlConfig.parseDaemonPort CtlConfig.parseSourcePort
  simp only [CtlConfig.parseDaemonIp_eq, parsePort_eq, Option.bind_eq_bind, Option.bind_eq_some_iff]
  constructor
  · rintro ⟨b, ⟨ip, hip, hb⟩, c, ⟨daemonPort, hdaemon, hc⟩, sourcePort, hsource, hconfig⟩
    exact ⟨ip, daemonPort, sourcePort, b, c, hip, hb, hdaemon, hc, hsource, hconfig⟩
  · rintro ⟨ip, daemonPort, sourcePort, b, c, hip, hb, hdaemon, hc, hsource, hconfig⟩
    exact ⟨b, ⟨ip, hip, hb⟩, c, ⟨daemonPort, hdaemon, hc⟩, sourcePort, hsource, hconfig⟩

/-- The address is behind both ports. -/
theorem storeDaemonIp_frame {b c : Block CtlConfig.size} {ip : Option Bytes} {p : Nat}
    (h : CtlConfig.storeDaemonIp b ip = some c) (hp : p + 2 ≤ CtlConfig.daemonIpAt) : c.u16 p = b.u16 p := by
  cases ip with
  | none =>
      cases h
      rfl
  | some ip =>
      unfold CtlConfig.daemonIpAt at hp
      exact u16_store_of_disjoint h (by unfold CtlConfig.size; omega) (.inl hp)

/-- The ports of `ioswitchctl`. -/
theorem parsePort_taken (hw : Decimal w n) (hn : IsInt n) {start config : Block CtlConfig.size}
    (hparse : CtlConfig.parseTokens t start = some config) :
    (firstText t CtlConfig.daemonPortVar = some (some w) →
      (Taken n (start.u16 CtlConfig.daemonPortAt) (config.u16 CtlConfig.daemonPortAt) ↔
        Harmless n (start.u16 CtlConfig.daemonPortAt))) ∧
    (firstText t CtlConfig.sourcePortVar = some (some w) →
      (Taken n (start.u16 CtlConfig.sourcePortAt) (config.u16 CtlConfig.sourcePortAt) ↔
        Harmless n (start.u16 CtlConfig.sourcePortAt))) := by
  obtain ⟨ip, daemonPort, sourcePort, b, c, -, hip, hdaemon, hb, hsource, hc⟩ := (parseTokens_eq t start config).mp hparse
  constructor
  · intro h
    rw [h] at hdaemon
    cases hdaemon
    obtain ⟨after, hafter, htaken⟩ := @takePort_taken CtlConfig.size CtlConfig.daemonPortAt (by decide) w n hw hn b
    obtain rfl : after = c := Option.some.inj (hafter.symm.trans hb)
    rwa [storePort_frame hc (by decide) (.inr (by decide)), ← storeDaemonIp_frame hip (by decide)]
  · intro h
    rw [h] at hsource
    cases hsource
    obtain ⟨after, hafter, htaken⟩ := @takePort_taken CtlConfig.size CtlConfig.sourcePortAt (by decide) w n hw hn c
    obtain rfl : after = config := Option.some.inj (hafter.symm.trans hc)
    have hkept : c.u16 CtlConfig.sourcePortAt = start.u16 CtlConfig.sourcePortAt :=
      (storePort_frame hb (by decide) (.inl (by decide))).trans (storeDaemonIp_frame hip (by decide))
    rwa [← hkept]

end Loaders

/-- **Ports are taken exactly or not at all** iff their numbers are harmless: a port, 0, or what the field already
    holds. Any other number is cut down to its low 16 bits. -/
theorem ports_iff (t : Tokenizer) {w : Bytes} {n : Int} (hw : Decimal w n) (hn : IsInt n) :
    (firstText t destPortVar = some (some w) → ∀ heap config : Block size, loadFrom t heap = some config →
      ∃ before, loadDestIp t heap = some before ∧
        (Taken n (before.u16 destPortAt) (config.u16 destPortAt) ↔ Harmless n (before.u16 destPortAt)) ∧
        ((∀ ip, firstText t destIpVar = some (some ip) → ip.length < 16) →
          before.u16 destPortAt = heap.u16 destPortAt)) ∧
    (firstText t CtlConfig.daemonPortVar = some (some w) → ∀ start config : Block CtlConfig.size,
      CtlConfig.parseTokens t start = some config →
        (Taken n (start.u16 CtlConfig.daemonPortAt) (config.u16 CtlConfig.daemonPortAt) ↔
          Harmless n (start.u16 CtlConfig.daemonPortAt))) ∧
    (firstText t CtlConfig.sourcePortVar = some (some w) → ∀ start config : Block CtlConfig.size,
      CtlConfig.parseTokens t start = some config →
        (Taken n (start.u16 CtlConfig.sourcePortAt) (config.u16 CtlConfig.sourcePortAt) ↔
          Harmless n (start.u16 CtlConfig.sourcePortAt))) := by
  refine ⟨fun h heap config hload => ?_, fun h start config hparse => ?_, fun h start config hparse => ?_⟩
  · exact destPort_taken hw hn h hload
  · exact (parsePort_taken hw hn hparse).1 h
  · exact (parsePort_taken hw hn hparse).2 h

/-- The setting `dest_port=w`. -/
def portTokens (w : Bytes) : Tokenizer := ⟨[noToken, tokenOf .variable 0 destPortVar, tokenOf .value 10 w]⟩

/-- The port 16307. -/
theorem ports_iff_shipped : ∃ config, loadFrom (portTokens [49, 54, 51, 48, 55]) (fill size 7) = some config ∧
    ∃ before, loadDestIp (portTokens [49, 54, 51, 48, 55]) (fill size 7) = some before ∧
      (Taken 16307 (before.u16 destPortAt) (config.u16 destPortAt) ↔ Harmless 16307 (before.u16 destPortAt)) := by
  have hw : Decimal [49, 54, 51, 48, 55] 16307 := .digits (by decide) (List.all_eq_true.mp rfl)
  have hfirst : firstText (portTokens [49, 54, 51, 48, 55]) destPortVar = some (some [49, 54, 51, 48, 55]) := by
    decide +kernel
  have hload : (loadFrom (portTokens [49, 54, 51, 48, 55]) (fill size 7)).isSome := by decide +kernel
  obtain ⟨config, hconfig⟩ := Option.isSome_iff_exists.mp hload
  obtain ⟨before, hbefore, htaken, -⟩ := (ports_iff _ hw (by unfold IsInt; decide)).1 hfirst _ config hconfig
  exact ⟨config, hconfig, before, hbefore, htaken⟩

/-- 65616 is stored as port 80. -/
theorem port_cut_down : ¬ ∀ (t : Tokenizer) (w : Bytes) (n : Int), Decimal w n → IsInt n →
    firstText t destPortVar = some (some w) → ∀ heap config : Block size, loadFrom t heap = some config →
      Taken n (heap.u16 destPortAt) (config.u16 destPortAt) := by
  intro h
  have hw : Decimal [54, 53, 54, 49, 54] 65616 := .digits (by decide) (List.all_eq_true.mp rfl)
  have hload : (loadFrom (portTokens [54, 53, 54, 49, 54]) (fill size 7)).map (·.u16 destPortAt) = some 80 := by
    decide +kernel
  obtain ⟨config, hconfig, hport⟩ := Option.map_eq_some_iff.mp hload
  have htaken := h _ _ _ hw (by unfold IsInt; decide) (by decide +kernel) _ config hconfig
  have hheap : (fill size 7).u16 destPortAt = 1799 := by decide +kernel
  rw [hport, hheap, Taken, if_neg (by decide)] at htaken
  exact absurd htaken (by decide)

end Config

end IOSwitch
