import IOSwitch.Daemon.Script

/-!
# `Daemon.Arrival` — what `run_server` takes for a request

`run_server` receives a `NewConnection` and, for a command, a `CommandArgs`, each with one `recv` into a variable
that still holds the message before. It looks at the sign of the result only, so what a short `recv` leaves open
is filled in by what an earlier peer has sent. The daemon acts on what its peer has sent iff the `recv`s return
whole structs (`acts_iff_whole`); a peer that sends nothing has the last command carried out again
(`stale_command`).

## Contents
- `Request`, `request` — what a peer's bytes ask for: the specification.
- `onPieces`, `acted` — what the accept loop does when its `recv`s return given pieces.
- `Delivers`, `ActsOn`, `acts_iff_whole`, `stale_command`.
-/

namespace IOSwitch

open Lib Server

/-! ## What the bytes ask for -/

/-- What a round of the accept loop leads to, apart from what it leaves on the stack. -/
inductive Outcome where
  | again
  | handler (args : CommandArgs)
  | ends (code : Int)

def ServerLoc.outcome : ServerLoc → Outcome
  | entry _ _ | loop _ _ => .again
  | handle _ args        => .handler (.ofMem args)
  | returned code        => .ends code

/-- A request that a peer has sent completely. -/
inductive Request where
  | input (conn : Bytes)
  | command (args : CommandArgs)

/-- What the main thread is to do for a request on `fd`. -/
def Request.serve (fd : Int) : Request → Prog serverI Outcome
  | input conn   => do
      acceptInput fd conn
      return .again
  | command args => return .handler args

/-- The abstract reading of a peer's bytes: the request at their front, if it is complete, and what follows it. -/
def request (bytes : Bytes) : Option (Request × Bytes) :=
  let rest := bytes.drop NewConnection.size
  if bytes.length < NewConnection.size then none
  else match NewConnection.typeAt bytes with
    | .inputStream => some (.input (bytes.take NewConnection.size), rest)
    | .command     =>
        if rest.length < CommandArgs.size then none
        else some (.command (.ofMem (rest.take CommandArgs.size)), rest.drop CommandArgs.size)
    | .other _     => none

/-! ## What the code makes of the pieces -/

/-- The rest of a program of the main thread once a connection is accepted as `fd` and its `recv`s have returned
    the pieces, one after the other; and what is then left of the peer's bytes. -/
def onPieces (fd : Int) : Prog serverI ServerLoc → List Bytes → Bytes → Prog serverI ServerLoc × Bytes
  | .call .accept k, ds, bytes            => onPieces fd (k fd) ds bytes
  | .call (.recvConn _) k, d :: ds, bytes => onPieces fd (k (Daemon.received d)) ds (bytes.drop d.length)
  | .call (.recvArgs _) k, d :: ds, bytes => onPieces fd (k (Daemon.received d)) ds (bytes.drop d.length)
  | p, _, bytes                           => (p, bytes)

/-- What a round of the accept loop does after the `recv`s, and what it has left unread. -/
def acted (fd : Int) (conn args bytes d₁ d₂ : Bytes) : Prog serverI Outcome × Bytes :=
  let (p, rest) := onPieces fd (acceptOne conn args) [d₁, d₂] bytes
  (do return (← p).outcome, rest)

section Pieces

variable {fd : Int} {conn args bytes d₁ d₂ : Bytes}

/-- The first piece is all that is looked at, unless it makes `conn.type` that of a command. -/
theorem onPieces_acceptOne (hfd : 0 ≤ fd) (h₁ : d₁.length ≤ NewConnection.size) (h₂ : d₂.length ≤ CommandArgs.size) :
    onPieces fd (acceptOne conn args) [d₁, d₂] bytes =
      match NewConnection.typeAt (overlay conn d₁) with
      | .inputStream =>
          (acceptInput fd (overlay conn d₁) >>= fun _ => .ret (.loop (overlay conn d₁) args), bytes.drop d₁.length)
      | .command =>
          (.ret (.handle (overlay conn d₁) (overlay args d₂)), (bytes.drop d₁.length).drop d₂.length)
      | .other _ => (.ret (.loop (overlay conn d₁) args), bytes.drop d₁.length) := by
  let got₁ : ReadResult NewConnection.size := .data d₁ h₁
  let got₂ : ReadResult CommandArgs.size := .data d₂ h₂
  have hgot₁ : Daemon.received d₁ = got₁ := Daemon.received_of_le h₁
  have hgot₂ : Daemon.received d₂ = got₂ := Daemon.received_of_le h₂
  have hret₁ : ¬ got₁.ret < 0 := by simp [got₁, ReadResult.ret]
  have hret₂ : ¬ got₂.ret < 0 := by simp [got₂, ReadResult.ret]
  have hbytes₁ : got₁.bytes = d₁ := rfl
  have hbytes₂ : got₂.bytes = d₂ := rfl
  simp only [acceptOne, Prog.perform_eq, Prog.call_bind, Prog.ret_bind, onPieces, if_neg (Int.not_lt.mpr hfd), hgot₁,
    if_neg hret₁, hbytes₁, acceptConn]
  cases NewConnection.typeAt (overlay conn d₁) with
  | inputStream => rfl
  | command => simp [onPieces, hgot₂, hret₂, hbytes₂]
  | other code => rfl

end Pieces

/-! ## Types that the first bytes leave open -/

/-- The first bytes of the type field rule out `t`. -/
def Excludes (d : Bytes) (t : ConnectionType) : Prop := ¬ d.take 4 <+: toLe 4 t.code

instance (d : Bytes) (t : ConnectionType) : Decidable (Excludes d t) := inferInstanceAs (Decidable (¬ _))

theorem ofCode_inputStream {n : Nat} : ConnectionType.ofCode n = .inputStream ↔ n = 0 := by
  unfold ConnectionType.ofCode
  split <;> simp_all

theorem ofCode_command {n : Nat} : ConnectionType.ofCode n = .command ↔ n = 1 := by
  unfold ConnectionType.ofCode
  split <;> simp_all

/-- The bytes of a type that has a case of its own. -/
theorem typeAt_eq_iff {m : Bytes} (hlen : 4 ≤ m.length) {t : ConnectionType} (ht : t = .inputStream ∨ t = .command) :
    NewConnection.typeAt m = t ↔ m.take 4 = toLe 4 t.code := by
  have hfour : (m.take 4).length = 4 := by
    rw [List.length_take]
    omega
  have hback : toLe 4 (ofLe (m.take 4)) = m.take 4 := by
    have h := toLe_ofLe (m.take 4)
    rwa [hfour] at h
  have hcode : NewConnection.typeAt m = t ↔ ofLe (m.take 4) = t.code := by
    unfold NewConnection.typeAt
    rcases ht with rfl | rfl
    · exact ofCode_inputStream
    · exact ofCode_command
  rw [hcode]
  constructor
  · intro h
    rw [← hback, h]
  · intro h
    rw [h, ofLe_toLe]
    rcases ht with rfl | rfl <;> decide

/-- A type that the first bytes rule out is not that of the message. -/
theorem typeAt_ne_of_excludes {d m : Bytes} (hd : d <+: m) (hlen : 4 ≤ m.length) {t : ConnectionType}
    (ht : t = .inputStream ∨ t = .command) (hex : Excludes d t) : NewConnection.typeAt m ≠ t := by
  intro h
  rw [typeAt_eq_iff hlen ht] at h
  apply hex
  rw [← h]
  exact hd.take 4

/-- A type that the first bytes do not rule out is what some stack contents make of them. -/
theorem exists_typeAt {d : Bytes} (hlen : d.length ≤ NewConnection.size) {t : ConnectionType}
    (ht : t = .inputStream ∨ t = .command) (hex : ¬ Excludes d t) :
    ∃ conn, conn.length = NewConnection.size ∧ NewConnection.typeAt (overlay conn d) = t := by
  have hpre : d.take 4 <+: toLe 4 t.code := not_not.mp hex
  have hconn : (toLe 4 t.code ++ List.replicate 516 0).length = NewConnection.size := by
    rw [List.length_append, toLe_length, List.length_replicate]
    rfl
  refine ⟨toLe 4 t.code ++ List.replicate 516 0, hconn, ?_⟩
  have hfour : 4 ≤ (overlay (toLe 4 t.code ++ List.replicate 516 0) d).length := by
    rw [overlay_length (by rwa [hconn]), hconn]
    decide
  rw [typeAt_eq_iff hfour ht]
  by_cases hlong : 4 ≤ d.length
  · -- the type is in `d`
    unfold overlay
    rw [List.take_append_of_le_length hlong]
    apply hpre.eq_of_length
    rw [toLe_length, List.length_take]
    omega
  · -- the rest of it is left over
    obtain ⟨u, hu⟩ := hpre
    have htake : d.take 4 = d := List.take_of_length_le (by omega)
    rw [htake] at hu
    have hdrop : (toLe 4 t.code ++ List.replicate 516 0).drop d.length = u ++ List.replicate 516 0 := by
      rw [← hu, List.append_assoc, List.drop_left]
    have hfull : (toLe 4 t.code).length = 4 := toLe_length 4 _
    unfold overlay
    rw [hdrop, ← List.append_assoc, hu, List.take_left' hfull]

/-! ## Acting on what was sent -/

/-- The bytes of the peer that its request is made of. -/
def Request.size : Request → Nat
  | input _   => NewConnection.size
  | command _ => NewConnection.size + CommandArgs.size

theorem request_length {bytes rest : Bytes} {r : Request} (h : request bytes = some (r, rest)) :
    bytes.length = r.size + rest.length := by
  simp only [request] at h
  split at h
  · cases h
  · next hlen =>
    split at h
    · obtain ⟨rfl, rfl⟩ := Prod.mk.inj (Option.some.inj h)
      rw [Request.size, List.length_drop]
      omega
    · split at h
      · cases h
      · next hargs =>
        obtain ⟨rfl, rfl⟩ := Prod.mk.inj (Option.some.inj h)
        simp only [List.length_drop] at hargs
        simp only [Request.size, List.length_drop]
        omega
    · cases h

/-- The two `recv`s of a connection return `d₁` and `d₂` of the peer's `bytes`: as much as is there and fits, or
    less, but nothing only at the end. -/
structure Delivers (bytes d₁ d₂ : Bytes) : Prop where
  sent   : d₁ ++ d₂ <+: bytes
  first  : d₁.length ≤ NewConnection.size
  second : d₂.length ≤ CommandArgs.size
  closed₁ : d₁ = [] → bytes = []
  closed₂ : d₂ = [] → d₁ = bytes

/-- Whatever the variables `conn` and `args` hold, the daemon does what the peer's bytes ask for, if they ask for
    something completely, and leaves unread what follows the request; and nothing if they do not. -/
def ActsOn (bytes d₁ d₂ : Bytes) : Prop :=
  ∀ (fd : Int) (conn args : Bytes), 0 ≤ fd → conn.length = NewConnection.size → args.length = CommandArgs.size →
    match request bytes with
    | none           => (acted fd conn args bytes d₁ d₂).1 = .ret .again
    | some (r, rest) => acted fd conn args bytes d₁ d₂ = (r.serve fd, rest)

/-- The `recv`s return whole structs; or the first one returns less, but enough to see that the type is none that
    `run_server` has a case for. -/
def WholeRequest (d₁ d₂ : Bytes) : Prop :=
  (d₁.length = NewConnection.size ∧ (NewConnection.typeAt d₁ = .command → d₂.length = CommandArgs.size)) ∨
    (d₁.length < NewConnection.size ∧ Excludes d₁ .inputStream ∧ Excludes d₁ .command)

section Whole

variable {fd : Int} {conn args bytes d₁ d₂ : Bytes}

/-- A type that is neither asks for nothing. -/
theorem request_other (hin : NewConnection.typeAt bytes ≠ .inputStream) (hcom : NewConnection.typeAt bytes ≠ .command) :
    request bytes = none := by
  unfold request
  split
  · rfl
  · split
    · next h => exact absurd h hin
    · next h => exact absurd h hcom
    · rfl

/-- Likewise for what the accept loop does. -/
theorem acted_other (h : Delivers bytes d₁ d₂) (hfd : 0 ≤ fd)
    (hin : NewConnection.typeAt (overlay conn d₁) ≠ .inputStream)
    (hcom : NewConnection.typeAt (overlay conn d₁) ≠ .command) :
    (acted fd conn args bytes d₁ d₂).1 = .ret .again := by
  unfold acted
  rw [onPieces_acceptOne hfd h.first h.second]
  cases hty : NewConnection.typeAt (overlay conn d₁) with
  | inputStream => exact absurd hty hin
  | command => exact absurd hty hcom
  | other code => rfl

theorem acted_input (h : Delivers bytes d₁ d₂) (hfd : 0 ≤ fd)
    (hty : NewConnection.typeAt (overlay conn d₁) = .inputStream) :
    acted fd conn args bytes d₁ d₂ = ((Request.input (overlay conn d₁)).serve fd, bytes.drop d₁.length) := by
  unfold acted
  rw [onPieces_acceptOne hfd h.first h.second, hty]
  show (acceptInput fd (overlay conn d₁) >>= _ >>= _, _) = _
  rw [Prog.bind_assoc]
  rfl

theorem acted_command (h : Delivers bytes d₁ d₂) (hfd : 0 ≤ fd)
    (hty : NewConnection.typeAt (overlay conn d₁) = .command) :
    acted fd conn args bytes d₁ d₂ =
      ((Request.command (.ofMem (overlay args d₂))).serve fd, (bytes.drop d₁.length).drop d₂.length) := by
  unfold acted
  rw [onPieces_acceptOne hfd h.first h.second, hty]
  rfl

/-- **Whole structs are acted on.** -/
theorem actsOn_of_whole (h : Delivers bytes d₁ d₂) (hwhole : WholeRequest d₁ d₂) : ActsOn bytes d₁ d₂ := by
  intro fd conn args hfd hconn hargs
  obtain ⟨u, hu⟩ := h.sent
  rw [List.append_assoc] at hu
  subst hu
  rcases hwhole with ⟨hfull, hcommand⟩ | ⟨hshort, hin, hcom⟩
  · have hover : overlay conn d₁ = d₁ := overlay_full (by rw [hconn, hfull])
    have htype := NewConnection.typeAt_append hfull (d₂ ++ u)
    have hlen : ¬ (d₁ ++ (d₂ ++ u)).length < NewConnection.size := by
      rw [List.length_append, hfull]
      omega
    have hdrop : (d₁ ++ (d₂ ++ u)).drop NewConnection.size = d₂ ++ u := List.drop_left' hfull
    have htake : (d₁ ++ (d₂ ++ u)).take NewConnection.size = d₁ := List.take_left' hfull
    cases hty : NewConnection.typeAt d₁ with
    | inputStream =>
        have hreq : request (d₁ ++ (d₂ ++ u)) = some (.input d₁, d₂ ++ u) := by
          simp only [request, if_neg hlen, htype, hty, hdrop, htake]
        rw [hreq, acted_input h hfd (by rwa [hover]), hover]
        simp
    | command =>
        have htwo := hcommand hty
        have hrest : ¬ (d₂ ++ u).length < CommandArgs.size := by
          rw [List.length_append, htwo]
          omega
        have hdrop' : (d₂ ++ u).drop CommandArgs.size = u := List.drop_left' htwo
        have htake' : (d₂ ++ u).take CommandArgs.size = d₂ := List.take_left' htwo
        have hover' : overlay args d₂ = d₂ := overlay_full (by rw [hargs, htwo])
        have hreq : request (d₁ ++ (d₂ ++ u)) = some (.command (.ofMem d₂), u) := by
          simp only [request, if_neg hlen, htype, hty, hdrop, if_neg hrest, hdrop', htake']
        rw [hreq, acted_command h hfd (by rwa [hover]), hover']
        simp
    | other code =>
        have hin : NewConnection.typeAt d₁ ≠ .inputStream := by simp [hty]
        have hcom : NewConnection.typeAt d₁ ≠ .command := by simp [hty]
        rw [request_other (by rwa [htype]) (by rwa [htype])]
        exact acted_other h hfd (by rwa [hover]) (by rwa [hover])
  · -- the type is ruled out, in the variable and in the peer's bytes
    have hover : 4 ≤ (overlay conn d₁).length := by
      rw [overlay_length (by rw [hconn]; exact h.first), hconn]
      decide
    have hpre : d₁ <+: overlay conn d₁ := List.prefix_append _ _
    have hreq : request (d₁ ++ (d₂ ++ u)) = none := by
      by_cases hfour : 4 ≤ (d₁ ++ (d₂ ++ u)).length
      · have hsent : d₁ <+: d₁ ++ (d₂ ++ u) := List.prefix_append _ _
        exact request_other (typeAt_ne_of_excludes hsent hfour (Or.inl rfl) hin)
          (typeAt_ne_of_excludes hsent hfour (Or.inr rfl) hcom)
      · have hless : (d₁ ++ (d₂ ++ u)).length < NewConnection.size := by
          unfold NewConnection.size
          omega
        simp only [request, if_pos hless]
    rw [hreq]
    exact acted_other h hfd (typeAt_ne_of_excludes hpre hover (Or.inl rfl) hin)
      (typeAt_ne_of_excludes hpre hover (Or.inr rfl) hcom)

/-- A round that goes on to anything but the next one is one for a request. -/
theorem ActsOn.asked (hacts : ActsOn bytes d₁ d₂) (hfd : 0 ≤ fd) (hconn : conn.length = NewConnection.size)
    (hargs : args.length = CommandArgs.size) (hne : (acted fd conn args bytes d₁ d₂).1 ≠ .ret .again) :
    ∃ (r : Request) (rest : Bytes), acted fd conn args bytes d₁ d₂ = (r.serve fd, rest) ∧
      bytes.length = r.size + rest.length := by
  have hmatch := hacts fd conn args hfd hconn hargs
  cases hreq : request bytes with
  | none =>
      rw [hreq] at hmatch
      exact absurd hmatch hne
  | some found =>
      obtain ⟨r, rest⟩ := found
      rw [hreq] at hmatch
      exact ⟨r, rest, hmatch, request_length hreq⟩

theorem next_serve (r : Request) : (r.serve fd).next = none ↔ ∃ a, r = .command a := by
  cases r with
  | input c => simp [Request.serve, acceptInput, Prog.next]
  | command a => simp [Request.serve, Prog.next]

/-- What is taken for an input stream must have been received whole. -/
theorem ActsOn.input_whole (h : Delivers bytes d₁ d₂) (hacts : ActsOn bytes d₁ d₂)
    (hconn : conn.length = NewConnection.size) (hty : NewConnection.typeAt (overlay conn d₁) = .inputStream) :
    d₁.length = NewConnection.size := by
  have hact : acted 0 conn (List.replicate CommandArgs.size 0) bytes d₁ d₂ = _ := acted_input h (Int.le_refl 0) hty
  have hne : (acted 0 conn (List.replicate CommandArgs.size 0) bytes d₁ d₂).1 ≠ .ret .again := by
    rw [hact]
    simp [Request.serve, acceptInput]
  obtain ⟨r, rest, hserve, hlen⟩ := hacts.asked (Int.le_refl 0) hconn List.length_replicate hne
  rw [hact] at hserve
  have hrest : (bytes.drop d₁.length).length = rest.length := congrArg List.length (Prod.mk.inj hserve).2
  have hsize : NewConnection.size ≤ r.size := by
    cases r with
    | input c => exact Nat.le_refl _
    | command a => exact Nat.le_add_right _ _
  have hfirst := h.first
  rw [List.length_drop] at hrest
  have hpos : 0 < NewConnection.size := by decide
  omega

/-- What is taken for a command must have been received whole. -/
theorem ActsOn.command_whole (h : Delivers bytes d₁ d₂) (hacts : ActsOn bytes d₁ d₂)
    (hconn : conn.length = NewConnection.size) (hty : NewConnection.typeAt (overlay conn d₁) = .command) :
    d₁.length = NewConnection.size ∧ d₂.length = CommandArgs.size := by
  have hact : acted 0 conn (List.replicate CommandArgs.size 0) bytes d₁ d₂ = _ :=
    acted_command h (Int.le_refl 0) hty
  have hne : (acted 0 conn (List.replicate CommandArgs.size 0) bytes d₁ d₂).1 ≠ .ret .again := by
    rw [hact]
    simp [Request.serve]
  obtain ⟨r, rest, hserve, hlen⟩ := hacts.asked (Int.le_refl 0) hconn List.length_replicate hne
  rw [hact] at hserve
  obtain ⟨hprog, hunread⟩ := Prod.mk.inj hserve
  -- a handler is called at once, so it is a command that was asked for
  have hnext : (r.serve 0).next = none := by
    rw [← hprog]
    rfl
  obtain ⟨a, rfl⟩ := (next_serve r).mp hnext
  have hrest := congrArg List.length hunread
  have hfirst := h.first
  have hsecond := h.second
  simp only [List.length_drop] at hrest
  simp only [Request.size] at hlen
  have hpos : 0 < CommandArgs.size := by decide
  constructor <;> omega

end Whole

/-! ## The law of the accept loop -/

/-- The calls that bring a connection and its messages. -/
def ServerCall.Receives : ServerCall → Prop
  | accept | recvConn _ | recvArgs _ => True
  | _                                => False

/-- What a peer sends changes nothing by being received. -/
theorem Daemon.receives_inert {s s' : Daemon} {c : ServerCall} {r : c.Resp} (hc : c.Receives)
    (h : Step s (mainCall c r) s') : s' = { s with main := s'.main } := by
  obtain ⟨t, sh, -, hsh, rfl⟩ := step_main h
  cases c with
  | accept | recvConn _ | recvArgs _ =>
      cases hsh
      simp [newSenders, newListeners]
  | _ => exact hc.elim

/-- **Requests.** The daemon acts on what its peer has completely sent, whatever its variables hold, iff the
    `recv`s return whole structs or too little for any request; receiving changes nothing by itself. -/
theorem acts_iff_whole {bytes d₁ d₂ : Bytes} (h : Delivers bytes d₁ d₂) :
    (ActsOn bytes d₁ d₂ ↔ WholeRequest d₁ d₂) ∧
    ∀ (s s' : Daemon) (c : ServerCall) (r : c.Resp), c.Receives → Daemon.Step s (Daemon.mainCall c r) s' →
      s' = { s with main := s'.main } := by
  refine ⟨⟨?_, actsOn_of_whole h⟩, fun _ _ _ _ => Daemon.receives_inert⟩
  intro hacts
  by_cases hfull : d₁.length = NewConnection.size
  · refine Or.inl ⟨hfull, ?_⟩
    intro hty
    have hover : overlay (List.replicate NewConnection.size 0) d₁ = d₁ :=
      overlay_full (by rw [List.length_replicate, hfull])
    exact (hacts.command_whole h List.length_replicate (by rwa [hover])).2
  · -- a short piece: no contents of `conn` may turn it into a request
    have hshort : d₁.length < NewConnection.size := Nat.lt_of_le_of_ne h.first hfull
    refine Or.inr ⟨hshort, ?_, ?_⟩
    · by_contra hex
      obtain ⟨conn, hconn, hty⟩ := exists_typeAt h.first (Or.inl rfl) hex
      exact hfull (hacts.input_whole h hconn hty)
    · by_contra hex
      obtain ⟨conn, hconn, hty⟩ := exists_typeAt h.first (Or.inr rfl) hex
      exact hfull (hacts.command_whole h hconn hty).1

/-- A STOP that arrives in one piece. -/
theorem acts_iff_whole_stop :
    ActsOn (Daemon.commandConn ++ Daemon.plainArgs .stop) Daemon.commandConn (Daemon.plainArgs .stop) := by
  have hargs : (Daemon.plainArgs .stop).length = CommandArgs.size := by decide +kernel
  have hconn := Daemon.commandConn_length
  have h : Delivers (Daemon.commandConn ++ Daemon.plainArgs .stop) Daemon.commandConn (Daemon.plainArgs .stop) := by
    constructor
    · exact List.prefix_refl _
    · exact Nat.le_of_eq hconn
    · exact Nat.le_of_eq hargs
    · intro hnil
      have hzero : NewConnection.size = 0 := hconn.symm.trans (congrArg List.length hnil)
      exact absurd hzero (by decide)
    · intro hnil
      have hzero : CommandArgs.size = 0 := hargs.symm.trans (congrArg List.length hnil)
      exact absurd hzero (by decide)
  obtain ⟨hiff, -⟩ := acts_iff_whole h
  -- `rw`: unification would evaluate `request` on these bytes
  rw [hiff]
  left
  exact ⟨hconn, fun _ => hargs⟩

/-- A connection that its peer closes at once. -/
def silentVisit : List Event :=
  [Daemon.mainCall .accept (4 : Int), Daemon.mainCall (.recvConn 4) (Daemon.received []),
    Daemon.mainCall (.recvArgs 4) (Daemon.received [])]

/-- **A stale command**: a peer that sends nothing has the command run that the variables still hold, START or
    STOP; so after a STOP the handler of STOP runs once more. -/
theorem stale_command :
    Delivers [] [] [] ∧ ¬ ActsOn [] [] [] ∧
    (∀ t ∈ [CommandType.start, .stop], (acted 4 Daemon.commandConn (Daemon.plainArgs t) [] [] []).1 =
      .ret (.handler ⟨t, 0, List.replicate 256 0⟩)) ∧
    ∃ s, Run Daemon.Step (.init Daemon.emptyConfig [] [])
        (Daemon.boot ++ Daemon.order .stop Daemon.stopEvents ++ silentVisit ++
          [.main (.jump (.handle Daemon.commandConn (Daemon.plainArgs .stop)))]) s ∧
      s.main.rest.next = some .lockSender := by
  have h : Delivers [] [] [] := by
    constructor <;> simp
  refine ⟨h, ?_, ?_, ?_⟩
  · intro hacts
    have hwhole : ¬ WholeRequest [] [] := by
      unfold WholeRequest
      decide
    exact hwhole ((acts_iff_whole h).1.mp hacts)
  · intro t ht
    have hty : NewConnection.typeAt (overlay Daemon.commandConn []) = .command := rfl
    rw [acted_command h (by decide) hty]
    have hargs : CommandArgs.ofMem (overlay (Daemon.plainArgs t) []) = ⟨t, 0, List.replicate 256 0⟩ := by
      have hkind : t = .start ∨ t = .stop := by simpa using ht
      rcases hkind with rfl | rfl <;> decide +kernel
    rw [hargs]
    rfl
  · have hexec : (execs Daemon.exec (.init Daemon.emptyConfig [] [])
        (Daemon.boot ++ Daemon.order .stop Daemon.stopEvents ++ silentVisit ++
          [.main (.jump (.handle Daemon.commandConn (Daemon.plainArgs .stop)))])).map (·.main.rest.next) =
        some (some .lockSender) := by
      decide +kernel
    exact Run.exists_of_execs hexec

end IOSwitch
