import IOSwitch.Tokenizer.Scan

/-!
# `Tokenizer.Format` — the documented config format

The format the README gives, as data: a `ConfigText` is a list of items, an item is printed as one line or, for a
list, as one line for each of its parts, and every line has the tokens it ought to be cut into. The scan of a
printed line finds exactly these (`scans_line`).
-/

namespace IOSwitch.Tokenizer

open Lib

/-! ## Words and lines -/

/-- A name or a value. -/
structure Word where
  text     : Bytes
  nonempty : text ≠ []
  plain    : ∀ b ∈ text, Plain b
  short    : text.length < maxTokLen

/-- A run of spaces. -/
def spaces (k : Nat) : Bytes := List.replicate k space

/-- The lines of a config file. The numbers are the lengths of the runs of spaces. -/
inductive Line where
  | blank   (indent : Nat)
  | scalar  (indent : Nat) (name : Word) (gap : Nat) (value : Word)
  | opening (indent : Nat) (name : Word) (gap tail : Nat)
  | element (indent : Nat) (value : Word) (tail : Nat)
  | closing (indent : Nat)

/-- The line as it is printed, without its newline. -/
def Line.text : Line → Bytes
  | .blank k          => spaces k
  | .scalar k n gap v => spaces k ++ (n.text ++ equals :: (spaces gap ++ v.text))
  | .opening k n gap t => spaces k ++ (n.text ++ equals :: (spaces gap ++ openBrace :: spaces t))
  | .element k v t    => spaces k ++ (v.text ++ comma :: spaces t)
  | .closing k        => spaces k ++ [closeBrace]

/-- The tokens of the line. -/
def Line.tokens : Line → List Token
  | .blank _          => []
  | .scalar k n gap v => [tokenOf .variable k n.text, tokenOf .value (k + n.text.length + 1 + gap) v.text]
  | .opening k n gap _ =>
      [tokenOf .variable k n.text, tokenOf .openBracket (k + n.text.length + 1 + gap) [openBrace]]
  | .element k v _    => [tokenOf .value k v.text]
  | .closing k        => [tokenOf .closeBracket k [closeBrace]]

/-! ## Items -/

structure Element where
  indent : Nat
  value  : Word
  tail   : Nat

inductive Item where
  | blank  (indent : Nat)
  | scalar (indent : Nat) (name : Word) (gap : Nat) (value : Word)
  | list   (indent : Nat) (name : Word) (gap tail : Nat) (elements : List Element) (closeIndent : Nat)

def Item.lines : Item → List Line
  | .blank k          => [.blank k]
  | .scalar k n gap v => [.scalar k n gap v]
  | .list k n gap t es close =>
      .opening k n gap t :: es.map (fun e => .element e.indent e.value e.tail) ++ [.closing close]

/-- The values that the item gives to the variable `v`. -/
def Item.valuesOf (v : Bytes) : Item → List Bytes
  | .blank _         => []
  | .scalar _ n _ w  => if v = n.text then [w.text] else []
  | .list _ n _ _ es _ => if v = n.text then es.map (·.value.text) else []

/-- A config within the limits: a line fits into the buffer with its newline, and the tokens fit into the array
    behind the slot that `load_tokens` leaves at its front. -/
structure ConfigText where
  items : List Item
  width : ∀ i ∈ items, ∀ l ∈ i.lines, l.text.length + 1 ≤ maxLineWidth - 1
  few   : ((items.flatMap Item.lines).flatMap Line.tokens).length ≤ maxTokens - 1

def ConfigText.lines (c : ConfigText) : List Line := c.items.flatMap Item.lines

/-- The contents of the file. -/
def ConfigText.print (c : ConfigText) : Bytes := c.lines.flatMap fun l => l.text ++ [newline]

/-- The values of all items named `v`, in file order. -/
def ConfigText.valuesOf (c : ConfigText) (v : Bytes) : List Bytes := c.items.flatMap (Item.valuesOf v)

/-! ## The scan of a printed line

The argument runs backward over the line: if the rest is scanned to its end, so is the rest with one more piece in
front. -/

/-- With as many rounds as there are bytes ahead, the scan comes to the end of the line and has these tokens. -/
def Scans (done rest : Bytes) (last : UInt8) (toks toks' : List Token) : Prop :=
  ∀ fuel, rest.length ≤ fuel →
    ∃ s, scanFresh fuel done rest last toks = .ok s ∧ s.last = newline ∧ s.tokens = toks'

/-- What is ahead starts with a character that is seen at once. -/
def Visible (rest : Bytes) : Prop := ∃ b rest', rest = b :: rest' ∧ b ≠ space ∧ b ≠ nul

theorem Word.visible (w : Word) (rest : Bytes) : Visible (w.text ++ rest) := by
  obtain ⟨b, w', hw⟩ := List.exists_cons_of_ne_nil w.nonempty
  have hb : Plain b := w.plain b (by rw [hw]; exact List.mem_cons_self)
  exact ⟨b, w' ++ rest, by rw [hw, List.cons_append], hb.ne (by decide), hb.ne (by decide)⟩

section Pieces

variable {done rest : Bytes} {b last : UInt8} {k : Nat} {toks toks' : List Token}

/-- A piece that takes one round for each of its bytes. -/
theorem Scans.of_piece {done' : Bytes} {last' : UInt8} {toks₁ : List Token} (piece : Bytes)
    (hpiece : ∀ fuel, scanFresh (fuel + piece.length) done (piece ++ rest) last toks =
      scanFresh fuel done' rest last' toks₁)
    (h : Scans done' rest last' toks₁ toks') : Scans done (piece ++ rest) last toks toks' := by
  intro fuel hfuel
  rw [List.length_append] at hfuel
  obtain ⟨m, rfl⟩ : ∃ m, fuel = m + piece.length := ⟨fuel - piece.length, by omega⟩
  rw [hpiece]
  exact h _ (by omega)

theorem Scans.spaces (hskip : last = openBrace ∨ last = equals ∨ last = comma ∨ done = []) (hrest : Visible rest)
    (h : Scans (done ++ spaces k) rest last toks toks') : Scans done (spaces k ++ rest) last toks toks' := by
  obtain ⟨b, rest, rfl, hb, hnul⟩ := hrest
  intro fuel hfuel
  have hlen : (b :: rest).length ≤ fuel := by
    rw [List.length_append] at hfuel
    omega
  obtain ⟨n, rfl⟩ : ∃ n, fuel = n + 1 := Nat.exists_eq_add_of_le' (Nat.le_trans (Nat.succ_pos _) hlen)
  rw [Tokenizer.spaces, fresh_spaces hskip hb hnul]
  exact h _ hlen

theorem Scans.variable (n : Word) (hroom : toks.length < maxTokens) (hrest : rest ≠ [])
    (h : Scans (done ++ n.text ++ [equals]) rest equals (toks ++ [tokenOf .variable done.length n.text]) toks') :
    Scans done (n.text ++ equals :: rest) last toks toks' := by
  obtain ⟨c, rest, rfl⟩ := List.exists_cons_of_ne_nil hrest
  rw [← List.singleton_append, ← List.append_assoc]
  refine .of_piece _ (fun fuel => ?_) h
  rw [List.append_assoc, List.singleton_append, List.length_append, List.length_singleton]
  exact fresh_variable n.plain n.short hroom

theorem Scans.value (v : Word) (hroom : toks.length < maxTokens) (hb : b = comma ∨ b = newline) (hrest : rest ≠ [])
    (h : Scans (done ++ v.text ++ [b]) rest b (toks ++ [tokenOf .value done.length v.text]) toks') :
    Scans done (v.text ++ b :: rest) last toks toks' := by
  obtain ⟨c, rest, rfl⟩ := List.exists_cons_of_ne_nil hrest
  rw [← List.singleton_append, ← List.append_assoc]
  refine .of_piece _ (fun fuel => ?_) h
  rw [List.append_assoc, List.singleton_append, List.length_append, List.length_singleton]
  exact fresh_value v.plain v.short hroom v.nonempty hb

theorem Scans.opening (hroom : toks.length < maxTokens) (hrest : rest ≠ [])
    (h : Scans (done ++ [openBrace]) rest openBrace
      (toks ++ [tokenOf .openBracket done.length [openBrace]]) toks') :
    Scans done (openBrace :: rest) last toks toks' := by
  obtain ⟨c, rest, rfl⟩ := List.exists_cons_of_ne_nil hrest
  exact .of_piece [openBrace] (fun _ => fresh_open hroom) h

theorem Scans.closing (hroom : toks.length < maxTokens) (hrest : rest ≠ [])
    (h : Scans (done ++ [closeBrace]) rest closeBrace
      (toks ++ [tokenOf .closeBracket done.length [closeBrace]]) toks') :
    Scans done (closeBrace :: rest) last toks toks' := by
  obtain ⟨c, rest, rfl⟩ := List.exists_cons_of_ne_nil hrest
  exact .of_piece [closeBrace] (fun _ => fresh_close hroom) h

/-- The line is over: nothing but the newline is left of it. -/
theorem Scans.newline (htoks : toks = toks') : Scans done (newline :: nul :: rest) last toks toks' := by
  subst htoks
  intro fuel hfuel
  obtain ⟨n, rfl⟩ : ∃ n, fuel = n + 2 := ⟨fuel - 2, by simp only [List.length_cons] at hfuel; omega⟩
  exact fresh_newline

/-- The line is over, with the newline already behind the cursor. -/
theorem Scans.over (htoks : toks = toks') : Scans done (nul :: rest) Tokenizer.newline toks toks' := by
  subst htoks
  intro fuel hfuel
  obtain ⟨n, rfl⟩ : ∃ n, fuel = n + 1 := ⟨fuel - 1, by simp only [List.length_cons] at hfuel; omega⟩
  exact fresh_end

end Pieces

theorem visible_newline (rest : Bytes) : Visible (newline :: rest) := ⟨_, _, rfl, by decide, by decide⟩

theorem visible_openBrace (rest : Bytes) : Visible (openBrace :: rest) := ⟨_, _, rfl, by decide, by decide⟩

theorem visible_closeBrace (rest : Bytes) : Visible (closeBrace :: rest) := ⟨_, _, rfl, by decide, by decide⟩

/-- **A printed line** is cut into its tokens. -/
theorem scans_line (l : Line) (stale : Bytes) (last : UInt8) (toks : List Token)
    (hroom : toks.length + l.tokens.length ≤ maxTokens) :
    Scans [] (l.text ++ newline :: nul :: stale) last toks (toks ++ l.tokens) := by
  have hstart : last = openBrace ∨ last = equals ∨ last = comma ∨ ([] : Bytes) = [] := .inr (.inr (.inr rfl))
  cases l with
  | blank k => exact .spaces hstart (visible_newline _) (.newline (List.append_nil _).symm)
  | scalar k n gap v =>
      simp only [Line.text, Line.tokens, List.append_assoc, List.cons_append, List.length_cons, List.length_nil]
        at hroom ⊢
      refine .spaces hstart (n.visible _) (.variable n (by omega) (by simp) ?_)
      refine .spaces (.inr (.inl rfl)) (v.visible _) (.value v (by simp; omega) (.inr rfl) (by simp) ?_)
      exact .over (by simp [spaces, Nat.add_assoc, Nat.add_comm 1])
  | opening k n gap t =>
      simp only [Line.text, Line.tokens, List.append_assoc, List.cons_append, List.length_cons, List.length_nil]
        at hroom ⊢
      refine .spaces hstart (n.visible _) (.variable n (by omega) (by simp) ?_)
      refine .spaces (.inr (.inl rfl)) (visible_openBrace _) (.opening (by simp; omega) (by simp) ?_)
      refine .spaces (.inl rfl) (visible_newline _) ?_
      exact .newline (by simp [spaces, Nat.add_assoc, Nat.add_comm 1])
  | element k v t =>
      simp only [Line.text, Line.tokens, List.append_assoc, List.cons_append, List.length_cons, List.length_nil]
        at hroom ⊢
      refine .spaces hstart (v.visible _) (.value v (by omega) (.inl rfl) (by simp) ?_)
      refine .spaces (.inr (.inr (.inl rfl))) (visible_newline _) ?_
      exact .newline (by simp [spaces])
  | closing k =>
      simp only [Line.text, Line.tokens, List.append_assoc, List.cons_append, List.nil_append, List.length_cons,
        List.length_nil] at hroom ⊢
      refine .spaces hstart (visible_closeBrace _) (.closing (by omega) (by simp) ?_)
      exact .newline (by simp [spaces])

end IOSwitch.Tokenizer
