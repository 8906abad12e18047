import Mathlib.Data.List.Induction
import IOSwitch.Tokenizer.Append

/-!
# `Tokenizer.Lookup` — `get_variable` by positions

`get_variable` walks over the tokens once, with a flag that stays up until the next name, and copies what it finds
into a block that grows with every value. Neither shows in what it returns. The owner of a token is the nearest
`TOK_VARIABLE` before it, and the values of a name are the `TOK_VALUE` tokens whose owner has it (`Named`):
`getVariable_named` says that these are returned, in the order of the array.

`Values.getVariable` has the block with its `num_values`; `Values.getVariable_eq` says that every copy goes to a slot
that the last `realloc` has made, and that the block holds the list at the end, whatever the new slots held.
-/

namespace IOSwitch.Tokenizer

open Lib

/-! ## Owners -/

/-- The nearest `TOK_VARIABLE` before the token at `i`. -/
def ownerOf (ts : List Token) (i : Nat) : Option Token := (ts.take i).reverse.find? fun t => t.type = .variable

/-- The token at `i` is a value, and its owner has the name `var`. -/
def isNamed (ts : List Token) (var : Bytes) (i : Nat) : Bool :=
  (ts[i]?).any (fun t => t.type = .value) && (ownerOf ts i).any fun d => cstr d.val = cstr var

/-- The positions of the values of `var`. -/
def named (ts : List Token) (var : Bytes) : List Nat := (List.range ts.length).filter (isNamed ts var)

/-- `d` is the `TOK_VARIABLE` at `j`, and there is no other between it and `i`. -/
def Owns (ts : List Token) (j i : Nat) (d : Token) : Prop :=
  j < i ∧ ts[j]? = some d ∧ d.type = .variable ∧ ∀ k t, j < k → k < i → ts[k]? = some t → t.type ≠ .variable

/-- There is a `TOK_VALUE` at `i`, and the `TOK_VARIABLE` that owns it has the name `var`. -/
def Named (ts : List Token) (var : Bytes) (i : Nat) : Prop :=
  (∃ t, ts[i]? = some t ∧ t.type = .value) ∧ ∃ j d, Owns ts j i d ∧ cstr d.val = cstr var

theorem ownerOf_iff {ts : List Token} {i : Nat} (hi : i ≤ ts.length) {d : Token} :
    ownerOf ts i = some d ↔ ∃ j, Owns ts j i d := by
  induction i with
  | zero => simp [ownerOf, Owns]
  | succ i ih =>
      have hlt : i < ts.length := hi
      have hsnoc : ownerOf ts (i + 1) = if ts[i].type = .variable then some ts[i] else ownerOf ts i := by
        unfold ownerOf
        rw [List.take_succ_eq_append_getElem hlt, List.reverse_append, List.reverse_singleton, List.singleton_append,
          List.find?_cons]
        by_cases hvar : ts[i].type = .variable <;> simp [hvar]
      rw [hsnoc]
      split
      · next hvar =>
        constructor
        · intro h
          cases h
          refine ⟨i, Nat.lt_succ_self i, List.getElem?_eq_getElem hlt, hvar, ?_⟩
          intro k t hik hki
          omega
        · rintro ⟨j, hj, hd, hvar', hlast⟩
          -- the token at `i` is a name, so that it is the owner itself
          obtain rfl : j = i := by
            by_contra hne
            exact hlast i ts[i] (by omega) (Nat.lt_succ_self i) (List.getElem?_eq_getElem hlt) hvar
          rw [List.getElem?_eq_getElem hlt] at hd
          exact hd
      · next hvar =>
        rw [ih (Nat.le_of_lt hlt)]
        apply exists_congr
        intro j
        constructor
        · rintro ⟨hj, hd, hvar', hlast⟩
          refine ⟨by omega, hd, hvar', ?_⟩
          intro k t hjk hki ht
          rcases Nat.lt_or_eq_of_le (Nat.le_of_lt_succ hki) with hk | rfl
          · exact hlast k t hjk hk ht
          · rw [List.getElem?_eq_getElem hlt] at ht
            cases ht
            exact hvar
        · rintro ⟨hj, hd, hvar', hlast⟩
          refine ⟨?_, hd, hvar', fun k t hjk hki => hlast k t hjk (by omega)⟩
          by_contra hle
          obtain rfl : j = i := by omega
          rw [List.getElem?_eq_getElem hlt] at hd
          cases hd
          exact hvar hvar'

theorem mem_named {ts : List Token} {var : Bytes} {i : Nat} : i ∈ named ts var ↔ Named ts var i := by
  rw [named, List.mem_filter, List.mem_range, isNamed, Bool.and_eq_true, Option.any_eq_true, Option.any_eq_true]
  constructor
  · rintro ⟨hi, ⟨t, ht, hval⟩, d, hd, hname⟩
    obtain ⟨j, hj⟩ := (ownerOf_iff (Nat.le_of_lt hi)).mp hd
    exact ⟨⟨t, ht, of_decide_eq_true hval⟩, j, d, hj, of_decide_eq_true hname⟩
  · rintro ⟨⟨t, ht, hval⟩, j, d, hj, hname⟩
    have hi : i < ts.length := (List.getElem?_eq_some_iff.mp ht).1
    exact ⟨hi, ⟨t, ht, decide_eq_true hval⟩, d, (ownerOf_iff (Nat.le_of_lt hi)).mpr ⟨j, hj⟩, decide_eq_true hname⟩

/-- The positions are in the order of the array, and none is there twice. -/
theorem named_sorted (ts : List Token) (var : Bytes) : (named ts var).Pairwise (· < ·) :=
  List.pairwise_lt_range.filter _

/-! ## The flag -/

/-- What `found_var` is behind `ts`. -/
def foundBehind (var : Bytes) (found : Bool) (ts : List Token) : Bool :=
  match ts.reverse.find? fun t => t.type = .variable with
  | none   => found
  | some d => decide (text d = .ok (cstr var))

theorem picked_snoc (var : Bytes) (found : Bool) (ts : List Token) (t : Token) :
    picked var found (ts ++ [t]) =
      picked var found ts ++ if foundBehind var found ts = true ∧ t.type = .value then [t] else [] := by
  induction ts generalizing found with
  | nil =>
      rw [List.nil_append, picked, picked]
      by_cases hvar : t.type = .variable
      · have hval : t.type ≠ .value := by rw [hvar]; decide
        rw [if_pos hvar, if_neg fun h => hval h.2]
        rfl
      · rw [if_neg hvar]
        rfl
  | cons d ts ih =>
      have hbehind : foundBehind var found (d :: ts) =
          foundBehind var (if d.type = .variable then decide (text d = .ok (cstr var)) else found) ts := by
        unfold foundBehind
        rw [List.reverse_cons, List.find?_append]
        cases ts.reverse.find? fun t => t.type = .variable with
        | some e => rfl
        | none =>
            by_cases hvar : d.type = .variable
            · simp [hvar]
            · simp [hvar]
      rw [hbehind, List.cons_append, picked, picked]
      by_cases hvar : d.type = .variable
      · rw [if_pos hvar, if_pos hvar, if_pos hvar, ih]
      · rw [if_neg hvar, if_neg hvar, if_neg hvar]
        split
        · rw [ih, List.cons_append]
        · exact ih found

/-- The flag is up where the owner has the name. -/
theorem foundBehind_eq (var : Bytes) {ts : List Token} (hread : ∀ t ∈ ts, nul ∈ t.val) :
    foundBehind var false ts = (ownerOf ts ts.length).any fun d => cstr d.val = cstr var := by
  unfold foundBehind ownerOf
  rw [List.take_length]
  cases h : ts.reverse.find? fun t => t.type = .variable with
  | none => rfl
  | some d =>
      have hd : d ∈ ts := List.mem_reverse.mp (List.mem_of_find?_eq_some h)
      have htext : text d = .ok (cstr d.val) := if_pos (hread d hd)
      simp [htext]

/-- **The values that are picked** are those of the name, by their positions. -/
theorem picked_named (var : Bytes) {ts : List Token} (hread : ∀ t ∈ ts, nul ∈ t.val) :
    (picked var false ts).map some = (named ts var).map (ts[·]?) := by
  induction ts using List.reverseRecOn with
  | nil => rfl
  | append_singleton ts t ih =>
      have hread' : ∀ u ∈ ts, nul ∈ u.val := fun u hu => hread u (List.mem_append_left _ hu)
      -- the positions in front of the last are named as before
      have hfront : ∀ i ∈ List.range ts.length, isNamed (ts ++ [t]) var i = isNamed ts var i := by
        intro i hi
        have hlt : i < ts.length := List.mem_range.mp hi
        unfold isNamed ownerOf
        rw [List.getElem?_append_left hlt, List.take_append_of_le_length (Nat.le_of_lt hlt)]
      have hlast : isNamed (ts ++ [t]) var ts.length = (decide (t.type = .value) && foundBehind var false ts) := by
        rw [foundBehind_eq var hread']
        unfold isNamed ownerOf
        rw [List.getElem?_concat_length, List.take_left, List.take_length]
        rfl
      have hsame : (named ts var).map ((ts ++ [t])[·]?) = (named ts var).map (ts[·]?) := by
        apply List.map_congr_left
        intro i hi
        exact List.getElem?_append_left (List.mem_range.mp (List.mem_filter.mp hi).1)
      have hsplit : named (ts ++ [t]) var =
          named ts var ++ if foundBehind var false ts = true ∧ t.type = .value then [ts.length] else [] := by
        unfold named
        rw [List.length_append, List.length_singleton, List.range_succ, List.filter_append, List.filter_congr hfront,
          List.filter_cons, List.filter_nil, hlast]
        cases foundBehind var false ts <;> by_cases hval : t.type = .value <;> simp [hval]
      rw [picked_snoc, hsplit, List.map_append, List.map_append, ih hread', hsame]
      refine congrArg _ ?_
      split
      · simp
      · rfl

/-- What `get_variable` returns, by positions. -/
theorem getVariable_named (t : Tokenizer) (hread : ∀ tok ∈ t.tokens, nul ∈ tok.val) (var : Bytes) :
    ∃ found, getVariable t var = .ok found ∧ (found.getD []).map some = (named t.tokens var).map (t.tokens[·]?) ∧
      (found = none ↔ found.getD [] = []) := by
  have hfind : findValues var false [] t.tokens = .ok (picked var false t.tokens) :=
    findValues_picked var (fun tok htok _ => ⟨_, if_pos (hread tok htok)⟩) false []
  refine ⟨if (picked var false t.tokens).length = 0 then none else some (picked var false t.tokens), ?_, ?_, ?_⟩
  · rw [getVariable, hfind]
    rfl
  · rw [← picked_named var hread]
    split
    · next hnone => rw [List.length_eq_zero_iff.mp hnone]; rfl
    · rfl
  · split
    · exact ⟨fun _ => rfl, fun _ => rfl⟩
    · next hsome =>
      refine ⟨fun h => absurd h (by simp), fun h => ?_⟩
      exact absurd (congrArg List.length h) hsome

/-! ## The growing copy -/

/-- `struct Values`: `num_values`, and the slots there are behind it. -/
structure Values where
  numValues : Nat
  tokens    : List Token
  deriving DecidableEq

namespace Values

/-- `malloc(sizeof(Values))`, with `num_values` set to 0. -/
def start : Values := ⟨0, []⟩

/-- `realloc(values, sizeof(Values) + n * sizeof(Token))`. The new slots hold `junk`. -/
def realloc (junk : Nat → Token) (n : Nat) (v : Values) : Values :=
  { v with tokens := (List.range n).map fun i => v.tokens.getD i (junk i) }

/-- `memcpy(&values->tokens[values->num_values], &t, sizeof(Token))` and `values->num_values++`. -/
def push (v : Values) (t : Token) : Except Fault Values :=
  if v.numValues < v.tokens.length then .ok ⟨v.numValues + 1, v.tokens.set v.numValues t⟩ else .error .tooManyTokens

/-- The loop of `get_variable`, with the block. -/
def find (junk : Nat → Token) (var : Bytes) (foundVar : Bool) (values : Values) : List Token → Except Fault Values
  | []           => .ok values
  | t :: tokens =>
      if t.type = .variable then do
        let val ← text t
        find junk var (decide (cstr var = val)) values tokens
      else if foundVar then
        if t.type = .value then do
          let values ← (values.realloc junk (values.numValues + 1)).push t
          find junk var foundVar values tokens
        else if t.type = .variable then .ok values
        else find junk var foundVar values tokens
      else find junk var foundVar values tokens

/-- `get_variable`, with the block it returns; `none` is `NULL`. -/
def getVariable (junk : Nat → Token) (t : Tokenizer) (var : Bytes) : Except Fault (Option Values) := do
  let values ← find junk var false start t.tokens
  return if values.numValues = 0 then none else some values

/-- A block that holds these tokens and no more. -/
def holding (ts : List Token) : Values := ⟨ts.length, ts⟩

/-- One more token, in a slot of its own. -/
theorem push_holding (junk : Nat → Token) (ts : List Token) (t : Token) :
    ((holding ts).realloc junk (ts.length + 1)).push t = .ok (holding (ts ++ [t])) := by
  have hslots : (List.range (ts.length + 1)).map (fun i => ts.getD i (junk i)) = ts ++ [junk ts.length] := by
    rw [List.range_succ, List.map_append]
    congr 1
    · apply List.ext_getElem
      · simp
      · intro i hi hi'
        simp [hi']
    · simp
  have hroom : ts.length < (ts ++ [junk ts.length]).length := by simp
  unfold push realloc holding
  rw [hslots, if_pos hroom]
  simp

theorem find_holding (junk : Nat → Token) (var : Bytes) (found : Bool) (vs ts : List Token) :
    find junk var found (holding vs) ts = (findValues var found vs ts).map holding := by
  induction ts generalizing found vs with
  | nil => rfl
  | cons t ts ih =>
      rw [find, findValues]
      split
      · cases text t with
        | error e => rfl
        | ok val => exact ih _ _
      · split
        · split
          · have hpush : ((holding vs).realloc junk ((holding vs).numValues + 1)).push t = .ok (holding (vs ++ [t])) :=
              push_holding junk vs t
            rw [hpush]
            exact ih found (vs ++ [t])
          · -- the branch for a second name is never taken
            exact ih found vs
        · exact ih found vs

/-- **The block that is returned** holds the values and their number, and no copy has missed its slots. -/
theorem getVariable_eq (junk : Nat → Token) (t : Tokenizer) (var : Bytes) :
    getVariable junk t var = (Tokenizer.getVariable t var).map (Option.map holding) := by
  have hfind : find junk var false start t.tokens = (findValues var false [] t.tokens).map holding :=
    find_holding junk var false [] t.tokens
  rw [getVariable, Tokenizer.getVariable, hfind]
  cases findValues var false [] t.tokens with
  | error e => rfl
  | ok vs =>
      show Except.ok (if vs.length = 0 then none else some (holding vs)) = Except.ok (Option.map holding _)
      split <;> rfl

end Values

end IOSwitch.Tokenizer
