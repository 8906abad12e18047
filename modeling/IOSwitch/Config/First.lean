import IOSwitch.Config.Ctl
import IOSwitch.Tokenizer.Lookup

/-!
# `Config.First` — the first value of a variable

`load_config` and `parse_config` read `tokens[0]` of what `get_variable` returns, for every variable but `devices`.
That is a value of the file whenever it is read: the first one that is given under the name (`ReadsFirst`).
-/

namespace IOSwitch

open Lib Tokenizer

namespace Config

/-- `x` is the first value of `var` in the array. -/
def FirstNamed (ts : List Token) (var : Bytes) (x : Token) : Prop :=
  ∃ i, Named ts var i ∧ ts[i]? = some x ∧ ∀ k, k < i → ¬ Named ts var k

/-- A stage of a loader uses the first value of `var`, and does nothing where there is none. -/
def ReadsFirst {n : Nat} (t : Tokenizer) (var : Bytes) (load : Block n → Option (Block n))
    (use : Block n → Token → Option (Block n)) : Prop :=
  (∀ x, FirstNamed t.tokens var x → ∀ config, load config = use config x) ∧
    ((∀ i, ¬ Named t.tokens var i) → ∀ config, load config = some config)

/-- `if ((temp_port = atoi(val)) != 0) config->port = temp_port`, for a port at offset `o`. -/
def usePort {n : Nat} (o : Nat) (config : Block n) (val : Token) : Option (Block n) := do
  let tempPort := atoi (← textOf val)
  if tempPort ≠ 0 then config.store o (toLe 2 tempPort.toNat) else return config

section Head

variable {ts vals : List Token} {var : Bytes}

theorem FirstNamed.unique {x y : Token} (hx : FirstNamed ts var x) (hy : FirstNamed ts var y) : x = y := by
  obtain ⟨i, hi, hx, hifirst⟩ := hx
  obtain ⟨j, hj, hy, hjfirst⟩ := hy
  obtain rfl : i = j := by
    apply Nat.le_antisymm
    · exact Nat.le_of_not_lt fun h => hifirst j h hj
    · exact Nat.le_of_not_lt fun h => hjfirst i h hi
  rw [hx] at hy
  exact Option.some.inj hy

variable (hvals : vals.map some = (named ts var).map (ts[·]?))
include hvals

/-- Nothing is returned iff nothing has the name. -/
theorem vals_nil_iff : vals = [] ↔ ∀ i, ¬ Named ts var i := by
  rw [← List.map_eq_nil_iff (f := some), hvals, List.map_eq_nil_iff, List.eq_nil_iff_forall_not_mem]
  exact forall_congr' fun i => not_congr mem_named

/-- The head of what is returned is the first value of the file. -/
theorem head_first (hne : vals ≠ []) : ∃ x, vals.head? = some x ∧ FirstNamed ts var x := by
  obtain ⟨x, vs, rfl⟩ := List.exists_cons_of_ne_nil hne
  have hsorted := named_sorted ts var
  have hmem : ∀ i, i ∈ named ts var ↔ Named ts var i := fun i => mem_named
  cases hps : named ts var with
  | nil =>
      rw [hps] at hvals
      cases hvals
  | cons i ps =>
      rw [hps] at hvals hmem hsorted
      have hx : some x = ts[i]? := (List.cons_eq_cons.mp hvals).1
      refine ⟨x, rfl, i, (hmem i).mp List.mem_cons_self, hx.symm, ?_⟩
      intro k hki hk
      -- the positions are in order, so that none of them is before their head
      rcases List.mem_cons.mp ((hmem k).mpr hk) with rfl | hkps
      · exact Nat.lt_irrefl k hki
      · exact Nat.lt_asymm hki (List.rel_of_pairwise_cons hsorted hkps)

end Head

/-- The file gives `var` the text `w` first, or does not give it (`none`). -/
def Gives (t : Tokenizer) (var : Bytes) : Option Bytes → Prop
  | none   => ∀ i, ¬ Named t.tokens var i
  | some w => ∃ x, FirstNamed t.tokens var x ∧ cstr x.val = w

theorem Gives.unique {t : Tokenizer} {var : Bytes} {v w : Option Bytes} (hv : Gives t var v) (hw : Gives t var w) :
    v = w := by
  cases v with
  | none =>
      cases w with
      | none => rfl
      | some w =>
          obtain ⟨x, ⟨i, hi, -⟩, -⟩ := hw
          exact absurd hi (hv i)
  | some v =>
      obtain ⟨x, hx, rfl⟩ := hv
      cases w with
      | none =>
          obtain ⟨i, hi, -⟩ := hx
          exact absurd hi (hw i)
      | some w =>
          obtain ⟨y, hy, rfl⟩ := hw
          rw [hx.unique hy]

theorem exists_gives {t : Tokenizer} (hread : ∀ tok ∈ t.tokens, nul ∈ tok.val) (var : Bytes) :
    ∃ w, firstText t var = some w ∧ Gives t var w := by
  obtain ⟨found, hfound, hvals, hnull⟩ := getVariable_named t hread var
  have hlookup : lookup t var = some found := by rw [lookup, hfound]; rfl
  unfold firstText
  rw [hlookup]
  cases found with
  | none => exact ⟨none, rfl, (vals_nil_iff hvals).mp rfl⟩
  | some vals =>
      have hne : vals ≠ [] := fun h => nomatch hnull.mpr h
      obtain ⟨x, hx, hfirst⟩ := head_first hvals hne
      have hmem : x ∈ t.tokens := by
        obtain ⟨i, -, hi, -⟩ := hfirst
        exact List.mem_of_getElem? hi
      have htext : textOf x = some (cstr x.val) := by rw [textOf, text, if_pos (hread x hmem)]; rfl
      refine ⟨some (cstr x.val), ?_, x, hfirst, rfl⟩
      have hhead : vals.head? = some x := hx
      simp [hhead, htext]

/-- That is what is read. -/
theorem gives_iff {t : Tokenizer} (hread : ∀ tok ∈ t.tokens, nul ∈ tok.val) {var : Bytes} {w : Option Bytes} :
    Gives t var w ↔ firstText t var = some w := by
  obtain ⟨v, hv, hgives⟩ := exists_gives hread var
  rw [hv]
  constructor
  · intro h
    rw [hgives.unique h]
  · rintro ⟨⟩
    exact hgives

/-- A stage that looks `var` up and uses the head of what is returned. -/
theorem readsFirst_of_lookup {n : Nat} {t : Tokenizer} (hread : ∀ tok ∈ t.tokens, nul ∈ tok.val) {var : Bytes}
    {load : Block n → Option (Block n)} {use : Block n → Token → Option (Block n)}
    (h : ∀ config, load config = (lookup t var).bind fun found =>
      match found with
      | none      => some config
      | some vals => vals.head?.bind (use config)) : ReadsFirst t var load use := by
  obtain ⟨found, hfound, hvals, hnull⟩ := getVariable_named t hread var
  have hlookup : lookup t var = some found := by rw [lookup, hfound]; rfl
  constructor
  · intro x hx config
    have hne : found.getD [] ≠ [] := by
      intro hnil
      obtain ⟨i, hi, -⟩ := hx
      exact (vals_nil_iff hvals).mp hnil i hi
    obtain ⟨y, hy, hfirst⟩ := head_first hvals hne
    rw [hx.unique hfirst, h, hlookup]
    cases found with
    | none => exact absurd rfl hne
    | some vals =>
        show vals.head?.bind (use config) = _
        rw [show vals.head? = some y from hy]
        rfl
  · intro hnone config
    rw [h, hlookup, hnull.mpr ((vals_nil_iff hvals).mpr hnone)]
    rfl

/-- **`get_variable` meets its definition by positions.** It returns the `TOK_VALUE` tokens whose owner has the name,
    each once, as they are and in the order of the array, with their number, and `NULL` where there are none. What
    the callers take is the first of them. -/
theorem get_variable_named (t : Tokenizer) (hread : ∀ tok ∈ t.tokens, nul ∈ tok.val) :
    (∀ (var : Bytes) (junk : Nat → Token), ∃ (found : Option (List Token)) (ps : List Nat),
      getVariable t var = .ok found ∧
      Values.getVariable junk t var = .ok (found.map fun vals => ⟨vals.length, vals⟩) ∧
      ps.Pairwise (· < ·) ∧ (∀ i, i ∈ ps ↔ Named t.tokens var i) ∧
      (found.getD []).map some = ps.map (t.tokens[·]?) ∧
      (found = none ↔ ∀ i, ¬ Named t.tokens var i) ∧
      (∀ vals, found = some vals → ∃ x, vals.head? = some x ∧ FirstNamed t.tokens var x)) ∧
    ReadsFirst t destIpVar (loadDestIp t) (fun config val => copyText config destIpAt val) ∧
    ReadsFirst t destPortVar (loadDestPort t) (usePort destPortAt) ∧
    ReadsFirst t CtlConfig.daemonIpVar (CtlConfig.parseDaemonIp t)
      (fun config val => do config.store CtlConfig.daemonIpAt ((← textOf val) ++ [0])) ∧
    ReadsFirst t CtlConfig.daemonPortVar (CtlConfig.parseDaemonPort t) (usePort CtlConfig.daemonPortAt) ∧
    ReadsFirst t CtlConfig.sourcePortVar (CtlConfig.parseSourcePort t) (usePort CtlConfig.sourcePortAt) := by
  refine ⟨fun var junk => ?_, readsFirst_of_lookup hread fun config => ?_, readsFirst_of_lookup hread fun config => ?_,
    readsFirst_of_lookup hread fun config => ?_, readsFirst_of_lookup hread fun config => ?_,
    readsFirst_of_lookup hread fun config => ?_⟩
  · obtain ⟨found, hfound, hvals, hnull⟩ := getVariable_named t hread var
    refine ⟨found, named t.tokens var, hfound, ?_, named_sorted _ _, fun i => mem_named, hvals,
      hnull.trans (vals_nil_iff hvals), ?_⟩
    · rw [Values.getVariable_eq, hfound]
      rfl
    · rintro vals rfl
      apply head_first hvals
      intro hnil
      cases hnull.mpr hnil
  · rfl
  · rfl
  · rfl
  · rfl
  · rfl

/-- A name that is given twice, with another in between and a bracket that nothing opens. -/
def twice : Tokenizer :=
  ⟨[noToken, tokenOf .variable 0 destIpVar, tokenOf .value 8 [97], tokenOf .variable 0 [120], tokenOf .value 2 [98],
    tokenOf .closeBracket 0 [closeBrace], tokenOf .variable 0 destIpVar, tokenOf .value 8 [99]]⟩

/-- Both of its values are returned, and the first is the one that is used. -/
theorem get_variable_named_twice : named twice.tokens destIpVar = [2, 7] ∧
    ReadsFirst twice destIpVar (loadDestIp twice) (fun config val => copyText config destIpAt val) :=
  ⟨by decide, (get_variable_named twice (by decide)).2.1⟩

end Config

end IOSwitch
