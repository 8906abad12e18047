import IOSwitch.Lib.Bytes

/-!
# `Lib.Getopt` — the options of an argument list

`getopt` is called until it has no more options to report; here it is the list of its reports. An option string names
the letters, each with a `:` behind it if it takes an argument. It begins with a `:` itself, so that a missing argument
is reported as such. Elements that are no options are passed over, and `--` ends the options. Optional arguments (`::`)
and `W;` are left out.

`Given` is an option with its argument as it is written on a command line, and a list of these is reported as it was
written (`getopt_words`).
-/

namespace Lib

/-- A report of `getopt`. -/
inductive Opt where
  | flag (c : UInt8)
  | arg (c : UInt8) (optarg : Bytes)
  | unknown (c : UInt8)
  | missing (c : UInt8)
  deriving DecidableEq

namespace Getopt

def dash : UInt8 := 45
def colon : UInt8 := 58
def semicolon : UInt8 := 59

/-- Whether the letter takes an argument; `none` if it is not in the option string. -/
def takes (optstring : Bytes) (c : UInt8) : Option Bool :=
  if c = colon ∨ c = semicolon then none
  else match optstring.dropWhile (· ≠ c) with
    | []        => none
    | _ :: rest => some (decide (rest.head? = some colon))

/-- The letters of one element, and the last of them if its argument is the next element. -/
def letters (optstring : Bytes) : Bytes → List Opt × Option UInt8
  | []        => ([], none)
  | c :: rest =>
      let (os, next) := letters optstring rest
      match takes optstring c with
      | none       => (.unknown c :: os, next)
      | some false => (.flag c :: os, next)
      | some true  => if rest = [] then ([], some c) else ([.arg c rest], none)

/-- The reports on an argument list, whose first element is the argument of `next` if there is such a letter. -/
def getopt (optstring : Bytes) : Option UInt8 → List Bytes → List Opt
  | none, []        => []
  | some c, []      => [.missing c]
  | some c, w :: ws => .arg c w :: getopt optstring none ws
  | none, w :: ws   =>
      if w = [dash, dash] then []
      else match w with
        | d :: c :: rest =>
            if d = dash then
              let (os, next) := letters optstring (c :: rest)
              os ++ getopt optstring next ws
            else getopt optstring none ws
        | _ => getopt optstring none ws

/-! ## Options as they are written -/

/-- An option and its argument, in one element or in two. -/
structure Given where
  letter : UInt8
  value  : Bytes
  joined : Bool
  deriving DecidableEq

namespace Given

/-- The elements of the argument list. -/
def words (g : Given) : List Bytes :=
  if g.joined then [dash :: g.letter :: g.value] else [[dash, g.letter], g.value]

def opt (g : Given) : Opt := .arg g.letter g.value

/-- The letter takes an argument, and what is joined to it is one. -/
structure Ok (optstring : Bytes) (g : Given) : Prop where
  takes  : takes optstring g.letter = some true
  ne     : g.letter ≠ dash
  joined : g.joined = true → g.value ≠ []

/-- The argument of the last option with this letter. -/
def last (c : UInt8) (gs : List Given) : Option Bytes := (gs.reverse.find? (·.letter = c)).map (·.value)

theorem last_cons (c : UInt8) (g : Given) (gs : List Given) : last c (g :: gs) = (last c gs).or (last c [g]) := by
  unfold last
  rw [List.reverse_cons, List.find?_append, Option.map_or, List.reverse_singleton]

end Given

section Words

variable {optstring : Bytes}

/-- One option is reported, and the rest of the list read as before. -/
theorem getopt_given {g : Given} (hg : g.Ok optstring) (ws : List Bytes) :
    getopt optstring none (g.words ++ ws) = g.opt :: getopt optstring none ws := by
  obtain ⟨c, value, joined⟩ := g
  obtain ⟨htakes, hne, hvalue⟩ := hg
  have hdashes : ∀ rest, dash :: c :: rest ≠ [dash, dash] := by
    intro rest h
    exact hne (List.cons.inj (List.cons.inj h).2).1
  cases joined with
  | true =>
      show getopt optstring none ((dash :: c :: value) :: ws) = _
      simp only [getopt, if_neg (hdashes value), ↓reduceIte, letters, htakes, if_neg (hvalue rfl), List.cons_append,
        List.nil_append, Given.opt]
  | false =>
      show getopt optstring none ([dash, c] :: value :: ws) = _
      simp only [getopt, if_neg (hdashes []), ↓reduceIte, letters, htakes, List.nil_append, Given.opt]

/-- **Round trip.** Options are reported as they were written. -/
theorem getopt_words {gs : List Given} (h : ∀ g ∈ gs, g.Ok optstring) :
    getopt optstring none (gs.flatMap Given.words) = gs.map Given.opt := by
  induction gs with
  | nil => rfl
  | cons g gs ih =>
      rw [List.flatMap_cons, getopt_given (h g List.mem_cons_self), List.map_cons,
        ih fun g' hg' => h g' (List.mem_cons_of_mem _ hg')]

end Words

end Getopt

end Lib
