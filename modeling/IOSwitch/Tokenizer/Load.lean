import IOSwitch.Lib.Bytes

/-!
# `Tokenizer.Load` — `tokenizer.c`

`load_tokens` reads a config file line by line into one buffer and cuts every line into tokens; `get_variable`
collects the values that follow the variables of one name.

The buffer keeps what earlier lines left behind the current one, and holds anything at first. Whatever C leaves
undefined here is a `Fault`: a read behind the buffer, a token longer than `val`, more tokens than the array
holds, a `strcmp` that meets no NUL. The array of tokens is the list of those written; their slots are zero
until then.
-/

namespace IOSwitch

open Lib

/-- `MAX_LINE_WIDTH`. -/
def maxLineWidth : Nat := 1024

/-- `MAX_TOKENS`. -/
def maxTokens : Nat := 10000

/-- `MAX_TOK_LEN`. -/
def maxTokLen : Nat := 256

inductive TokenType where
  | none | variable | openBracket | closeBracket | value
  deriving DecidableEq

structure Token where
  index : Nat
  len   : Nat
  type  : TokenType
  val   : Bytes
  deriving DecidableEq

/-- The tokens in use; `num_tokens` is their number. -/
structure Tokenizer where
  tokens : List Token
  deriving DecidableEq

namespace Tokenizer

inductive Fault where
  | lineOverrun | valOverflow | tooManyTokens | unterminated
  deriving DecidableEq

/-! ## Characters -/

def nul : UInt8 := 0
def newline : UInt8 := 10
def space : UInt8 := 32
def comma : UInt8 := 44
def semicolon : UInt8 := 59
def equals : UInt8 := 61
def openBrace : UInt8 := 123
def closeBrace : UInt8 := 125

/-! ## Reading lines -/

/-- The strings that successive calls `fgets(line, room + 1, file)` store, for a file that goes on with the given
    bytes: each ends behind a newline, after `room` bytes or at the end of the file. `got` is the beginning of
    the string being read, with `left` bytes of room behind it. -/
def fgetsAll (room : Nat) (got : Bytes) (left : Nat) : Bytes → List Bytes
  | []        => if got = [] then [] else [got]
  | b :: file =>
      if b = newline ∨ left ≤ 1 then (got ++ [b]) :: fgetsAll room [] room file
      else fgetsAll room (got ++ [b]) (left - 1) file

/-! ## `load_tokens` -/

/-- `buf[i]`, where `buf` is the line buffer. -/
def charAt (buf : Bytes) (i : Nat) : Except Fault UInt8 :=
  match buf[i]? with
  | some b => .ok b
  | none   => .error .lineOverrun

/-- The locals of the scan of one line. -/
structure Scan where
  idx      : Nat
  tokStart : Nat
  cur      : UInt8
  last     : UInt8
  tokens   : List Token
  deriving DecidableEq

/-- `while (cur == ' ')`. The index grows in every round, so that `line.length - idx` rounds are enough. -/
def skipSpaces (line : Bytes) : Nat → Scan → Except Fault Scan
  | 0, _        => .error .lineOverrun
  | fuel + 1, s =>
      if s.cur = space then do
        let cur ← charAt line (s.idx + 1)
        skipSpaces line fuel { s with idx := s.idx + 1, tokStart := s.tokStart + 1, cur := cur }
      else .ok s

/-- The token of the given type that starts at `index` and is `len` long is written into the next slot. -/
def Scan.add (line : Bytes) (s : Scan) (type : TokenType) (index len : Nat) : Except Fault Scan :=
  if maxTokens ≤ s.tokens.length then .error .tooManyTokens
  else if maxTokLen < len then .error .valOverflow
  else
    let val := strncpy (List.replicate maxTokLen 0) (line.drop index) len
    .ok { s with tokens := s.tokens ++ [⟨index, len, type, val⟩], tokStart := s.idx + 1 }

/-- The spaces that are skipped before `cur` is looked at. -/
def skipBefore (line : Bytes) (s : Scan) : Except Fault Scan :=
  if s.last = openBrace ∨ s.last = equals ∨ s.last = comma ∨ s.tokStart = 0 then
    skipSpaces line (line.length - s.idx) s
  else .ok s

/-- The token that ends at `cur`, if any. -/
def addAt (line : Bytes) (s : Scan) : Except Fault Scan :=
  if s.cur = equals then s.add line .variable s.tokStart (s.idx - s.tokStart)
  else if s.cur = openBrace then s.add line .openBracket s.idx 1
  else if s.cur = closeBrace then s.add line .closeBracket s.idx 1
  else if s.cur = newline ∨ s.cur = semicolon ∨ s.cur = comma then
    if 0 < s.idx - s.tokStart then s.add line .value s.tokStart (s.idx - s.tokStart) else .ok s
  else .ok s

/-- One round of `while (cur != '\\0')`. -/
def scanChar (line : Bytes) (s : Scan) : Except Fault Scan := do
  let s ← skipBefore line s
  let s ← addAt line s
  let cur ← charAt line (s.idx + 1)
  return { s with idx := s.idx + 1, last := s.cur, cur := cur }

/-- `while (cur != '\\0')`. Again the index grows in every round. -/
def scanLine (line : Bytes) : Nat → Scan → Except Fault Scan
  | 0, _        => .error .lineOverrun
  | fuel + 1, s =>
      if s.cur = nul then .ok s
      else do
        let s ← scanChar line s
        scanLine line fuel s

/-- `while (fgets(line, MAX_LINE_WIDTH, file))`, over the strings that the calls store. -/
def loadLines (line : Bytes) (last : UInt8) (tokens : List Token) : List Bytes → Except Fault (List Token)
  | []         => .ok tokens
  | got :: rest => do
      let line := overlay line (got ++ [nul])
      let cur ← charAt line 0
      let s ← scanLine line line.length ⟨0, 0, cur, last, tokens⟩
      loadLines line s.last s.tokens rest

/-- A slot of the array that has only been given the type `TOK_NONE`. -/
def noToken : Token := ⟨0, 0, .none, List.replicate maxTokLen 0⟩

/-- `load_tokens`, for a file with the given contents (`none`: it cannot be opened) and a stack that holds `line`
    where the buffer lies. -/
def loadTokens (line : Bytes) (file : Option Bytes) : Except Fault Tokenizer :=
  match file with
  | none         => .ok ⟨[]⟩
  | some content => do
      let tokens ← loadLines line nul [noToken] (fgetsAll (maxLineWidth - 1) [] (maxLineWidth - 1) content)
      return ⟨tokens⟩

/-! ## `get_variable` -/

/-- The string in `val`. -/
def text (t : Token) : Except Fault Bytes :=
  if nul ∈ t.val then .ok (cstr t.val) else .error .unterminated

/-- The loop of `get_variable` over the tokens, with `values` found so far. -/
def findValues (var : Bytes) (foundVar : Bool) (values : List Token) : List Token → Except Fault (List Token)
  | []           => .ok values
  | t :: tokens =>
      if t.type = .variable then do
        let val ← text t
        findValues var (decide (cstr var = val)) values tokens
      else if foundVar then
        if t.type = .value then findValues var foundVar (values ++ [t]) tokens
        else if t.type = .variable then .ok values
        else findValues var foundVar values tokens
      else findValues var foundVar values tokens

/-- `get_variable`; `none` is `NULL`. -/
def getVariable (t : Tokenizer) (var : Bytes) : Except Fault (Option (List Token)) := do
  let values ← findValues var false [] t.tokens
  return if values.length = 0 then none else some values

end Tokenizer

end IOSwitch
