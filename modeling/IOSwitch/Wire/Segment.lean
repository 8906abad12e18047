import IOSwitch.Lib.Framing
import IOSwitch.Server.Listener

/-!
# `Wire.Segment` — the listener against the segmentation of the byte stream

The sender's packets arrive as one stream of bytes, which the successive `read` calls of
`spawn_listener_thread` return in pieces. The loop asks for a whole packet every time and never for the rest of
one, so what it writes is settled by the full pieces alone (`listener_writes`). The stream is therefore decoded
right for exactly those segmentations that cut it between packets (`decodes_iff_whole`).
-/

namespace IOSwitch.Wire

open Lib Lib.Thread

/-! ## What a listener reads and writes -/

/-- The answer of a `read`. -/
def readOf : Sigma listenerI.Resp → List (ReadResult InputPacket.size)
  | ⟨.read, r⟩ => [r]
  | _          => []

/-- A `write`: the index of the device, and the event. -/
def writeOf : Sigma listenerI.Resp → List InputPacket
  | ⟨.write devId ie, _⟩ => [⟨devId, ie⟩]
  | _                    => []

/-- The answers to the `read` calls of a run, in order. -/
def readsOf (tr : List (Act listenerI ListenerLoc)) : List (ReadResult InputPacket.size) :=
  (tr.flatMap calls).flatMap readOf

/-- The events written in a run, each with the device index it was written to, in order. -/
def writesOf (tr : List (Act listenerI ListenerLoc)) : List InputPacket :=
  (tr.flatMap calls).flatMap writeOf

/-- The listener thread as `run_server` creates it. -/
def listener : Thread listenerI ListenerLoc := .start spawnListenerThread (.loop InputPacket.zero.encode)

/-- The packets in the answers that hold a whole one. -/
def decoded (rs : List (ReadResult InputPacket.size)) : List InputPacket :=
  (rs.filter fun r => decide (r.ret = (InputPacket.size : Int))).map fun r => .ofMem r.bytes

theorem decoded_append (rs rs' : List (ReadResult InputPacket.size)) :
    decoded (rs ++ rs') = decoded rs ++ decoded rs' := by
  simp [decoded]

theorem decoded_full {r : ReadResult InputPacket.size} (h : r.ret = InputPacket.size) :
    decoded [r] = [.ofMem r.bytes] := by
  simp [decoded, h]

theorem decoded_short {r : ReadResult InputPacket.size} (h : ¬ r.ret = InputPacket.size) :
    decoded [r] = [] := by
  simp [decoded, h]

/-! ## One round -/

/-- So far exactly the whole answers have been decoded and written. -/
def Decoding (g : List (Sigma listenerI.Resp)) : Prop :=
  g.flatMap writeOf = decoded (g.flatMap readOf)

/-- A `write` brings the writes into step with the answers; at the other calls they are. -/
def InStep (g : List (Sigma listenerI.Resp)) : ListenerCall → Prop
  | .write devId ie => g.flatMap writeOf ++ [⟨devId, ie⟩] = decoded (g.flatMap readOf)
  | _               => Decoding g

/-- `Decoding` at the head of every block; the packet variable keeps its size. -/
def DecodingAt : ListenerLoc → List (Sigma listenerI.Resp) → Prop
  | .loop packet, g => packet.length = InputPacket.size ∧ Decoding g
  | .exited, g      => Decoding g

/-- A whole answer leaves nothing of the packet before it. -/
theorem overlay_whole {packet : Bytes} {r : ReadResult InputPacket.size} (hlen : packet.length = InputPacket.size)
    (hr : r.ret = InputPacket.size) : overlay packet r.bytes = r.bytes := by
  have hpos : 0 ≤ r.ret := by rw [hr]; exact Int.natCast_nonneg _
  have hbytes := ReadResult.ret_eq_length hpos
  refine overlay_full ?_
  rw [hlen]
  omega

section Round

variable {g : List (Sigma listenerI.Resp)} {packet : Bytes} {r : ReadResult InputPacket.size}

/-- A call that neither reads nor writes keeps the writes in step. -/
theorem Decoding.other {c : Sigma listenerI.Resp} (hg : Decoding g) (hread : readOf c = []) (hwrite : writeOf c = []) :
    Decoding (g ++ [c]) := by
  rw [Decoding, List.flatMap_append, List.flatMap_append, List.flatMap_singleton, List.flatMap_singleton, hread,
    hwrite, List.append_nil, List.append_nil]
  exact hg

theorem Decoding.short (hg : Decoding g) (hr : ¬ r.ret = InputPacket.size) : Decoding (g ++ [⟨.read, r⟩]) := by
  rw [Decoding] at hg ⊢
  simp only [List.flatMap_append, List.flatMap_singleton, readOf, writeOf, hg, decoded_append, decoded_short hr,
    List.append_nil]

/-- **Round.** The round that a `read` begins writes the packet of a whole answer, and nothing else. -/
theorem handleRead_decoding (hlen : packet.length = InputPacket.size) (hg : Decoding g) :
    wp (history InStep) (Listener.handleRead packet r) (fun g' l => DecodingAt l g') (g ++ [⟨.read, r⟩]) := by
  have hlen' : (overlay packet r.bytes).length = InputPacket.size := by
    rw [overlay_length (by rw [hlen]; exact r.bytes_length_le), hlen]
  show wp _ (if r.ret = InputPacket.size then _ else _) _ _
  split
  · next hr =>
    -- a whole answer fills the variable, so what is written is the packet it brought
    have hwrite : InStep (g ++ [⟨.read, r⟩]) (.write (InputPacket.ofMem (overlay packet r.bytes)).devId
        (InputPacket.ofMem (overlay packet r.bytes)).ie) := by
      rw [Decoding] at hg
      simp only [InStep, List.flatMap_append, List.flatMap_singleton, readOf, writeOf, hg, decoded_append,
        decoded_full hr, overlay_whole hlen hr, List.append_nil]
    refine ⟨hwrite, ?_⟩
    rintro _ _ rfl
    refine ⟨hlen', ?_⟩
    rw [Decoding, List.flatMap_append, List.flatMap_append (f := readOf)]
    simpa [InStep, readOf, writeOf] using hwrite
  · next hr =>
    have hsame := hg.short hr
    split
    · -- the three calls on the way out neither read nor write
      refine ⟨hsame, ?_⟩
      rintro _ _ rfl
      have hlock := hsame.other (c := ⟨.lock, ()⟩) rfl rfl
      refine ⟨hlock, ?_⟩
      rintro _ _ rfl
      have hclear := hlock.other (c := ⟨.clearConnection, ()⟩) rfl rfl
      refine ⟨hclear, ?_⟩
      rintro _ _ rfl
      exact hclear.other (c := ⟨.unlock, ()⟩) rfl rfl
    · exact ⟨hlen', hsame⟩

end Round

theorem spawnListenerThread_decoding : Verified (history InStep) spawnListenerThread DecodingAt := by
  intro l g hg
  cases l with
  | loop packet =>
      obtain ⟨hlen, hg⟩ := hg
      refine ⟨hg, ?_⟩
      rintro r _ rfl
      exact handleRead_decoding hlen hg
  | exited => exact hg

/-- Wherever a listener stands, it has written the whole answers, but for the last one perhaps. -/
theorem written_prefix {t : Thread listenerI ListenerLoc} {g : List (Sigma listenerI.Resp)}
    (hok : t.Ok (history InStep) DecodingAt g) : g.flatMap writeOf <+: decoded (g.flatMap readOf) := by
  cases hrest : t.rest with
  | ret l =>
      have hl : DecodingAt l g := hok.of_ret hrest
      cases l with
      | loop packet => rw [hl.2]
      | exited => rw [show g.flatMap writeOf = _ from hl]
  | call c k =>
      have hpre : InStep g c := (hok.of_call hrest).1
      cases c with
      | write devId ie =>
          rw [← show _ = decoded (g.flatMap readOf) from hpre]
          exact List.prefix_append _ _
      | _ => rw [show g.flatMap writeOf = _ from hpre]

/-! ## Whole runs -/

variable {tr : List (Act listenerI ListenerLoc)} {t : Thread listenerI ListenerLoc}

/-- A thread at the end of its block meets the invariant of the block it goes on to; after the loop nothing is
    left to do. -/
theorem exited_rest (hrun : Run (Alone spawnListenerThread) listener tr t) (hexit : t.loc = .exited) :
    t.rest = .ret .exited := by
  have hall : t.loc = .exited → t.rest = .ret .exited := by
    refine hrun.invariant (I := fun t => t.loc = .exited → t.rest = .ret .exited) (fun h => by cases h) ?_
    intro t a t' ih hf hexit
    cases a with
    | jump l =>
        obtain rfl := jump_start hf
        obtain rfl : l = .exited := hexit
        rfl
    | did c r =>
        have hrest := ih (did_loc hf ▸ hexit)
        obtain ⟨k, hk, -⟩ := fire_did (I := listenerI).mp hf
        rw [hrest] at hk
        cases hk
  exact hall hexit

/-- A new listener is in order. -/
theorem listener_ok : listener.Ok (history InStep) DecodingAt [] := by
  have h0 : DecodingAt (.loop InputPacket.zero.encode) [] := ⟨InputPacket.encode_length _, rfl⟩
  exact ok_start spawnListenerThread_decoding h0

/-- **What the listener writes.** When it has left its loop it has written the packets of the whole answers,
    in order, and nothing else. -/
theorem listener_writes (hrun : Run (Alone spawnListenerThread) listener tr t) (hexit : t.loc = .exited) :
    writesOf tr = decoded (readsOf tr) := by
  have h0 : DecodingAt (.loop InputPacket.zero.encode) [] := ⟨InputPacket.encode_length _, rfl⟩
  have hok : t.Ok (history InStep) DecodingAt (tr.flatMap calls) := ok_alone spawnListenerThread_decoding h0 hrun
  rw [Thread.Ok, exited_rest hrun hexit] at hok
  exact hok

/-! ## Serving a segmentation -/

/-- The bytes of packets sent back to back. -/
abbrev stream (packets : List InputPacket) : Bytes := (packets.map InputPacket.encode).flatten

/-- The answers that bring the pieces one by one, and then the end of the stream. -/
def answers {bytes : Bytes} (s : Segmentation InputPacket.size bytes) : List (ReadResult InputPacket.size) :=
  s.pieces.pmap ReadResult.data s.fits ++ [.data [] (Nat.zero_le _)]

theorem decoded_pmap {pieces : List Bytes} (h : ∀ p ∈ pieces, p.length ≤ InputPacket.size) :
    decoded (pieces.pmap ReadResult.data h) =
      (pieces.filter fun p => p.length = InputPacket.size).map InputPacket.ofMem := by
  induction pieces with
  | nil => rfl
  | cons p ps ih =>
      have hps := ih fun q hq => h q (List.mem_cons_of_mem p hq)
      rw [List.pmap_cons, ← List.singleton_append, decoded_append, hps]
      by_cases hp : p.length = InputPacket.size
      · rw [decoded_full (ReadResult.ret_data.mpr hp), List.filter_cons_of_pos (by simpa using hp), List.map_cons]
        rfl
      · rw [decoded_short fun h => hp (ReadResult.ret_data.mp h), List.filter_cons_of_neg (by simpa using hp), List.nil_append]

/-- Of a segmented stream the full pieces are decoded. -/
theorem decoded_answers {bytes : Bytes} (s : Segmentation InputPacket.size bytes) :
    decoded (answers s) = s.full.map InputPacket.ofMem := by
  rw [answers, decoded_append, decoded_pmap, decoded_short (by decide), List.append_nil, Segmentation.full]

section Serve

variable (packet : Bytes)

/-- The head of the loop, with `packet` in the variable. -/
abbrev atLoop (packet : Bytes) : Thread listenerI ListenerLoc := .start spawnListenerThread (.loop packet)

theorem alone_did {c : listenerI.Call} {r : listenerI.Resp c} {l : ListenerLoc} {k : listenerI.Resp c → Prog listenerI ListenerLoc} :
    Alone spawnListenerThread ⟨l, .call c k⟩ (.did c r) ⟨l, k r⟩ :=
  (fire_did (I := listenerI)).mpr ⟨k, rfl, rfl⟩

theorem alone_jump {l l' : ListenerLoc} :
    Alone spawnListenerThread ⟨l, .ret l'⟩ (.jump l') (.start spawnListenerThread l') :=
  (fire_jump (I := listenerI)).mpr ⟨rfl, rfl⟩

/-- A read that brings some bytes is served by one round of the loop. -/
theorem serve_round {r : ReadResult InputPacket.size} (hr : 0 < r.ret) :
    ∃ packet' tr, Run (Alone spawnListenerThread) (atLoop packet) tr (atLoop packet') ∧ readsOf tr = [r] := by
  refine ⟨overlay packet r.bytes, ?_⟩
  by_cases hwhole : r.ret = InputPacket.size
  · have hround : Listener.handleRead packet r =
        .call (.write (InputPacket.ofMem (overlay packet r.bytes)).devId
          (InputPacket.ofMem (overlay packet r.bytes)).ie) fun _ => .ret (.loop (overlay packet r.bytes)) := by
      rw [Listener.handleRead, if_pos hwhole]
      rfl
    have hread : Alone spawnListenerThread (atLoop packet) (.did .read r) ⟨.loop packet, Listener.handleRead packet r⟩ :=
      alone_did
    rw [hround] at hread
    exact ⟨_, Run.cons hread (Run.cons (alone_did (r := ())) (Run.single alone_jump)), rfl⟩
  · have hround : Listener.handleRead packet r = .ret (.loop (overlay packet r.bytes)) := by
      rw [Listener.handleRead, if_neg hwhole, if_neg (by omega)]
      rfl
    have hread : Alone spawnListenerThread (atLoop packet) (.did .read r) ⟨.loop packet, Listener.handleRead packet r⟩ :=
      alone_did
    rw [hround] at hread
    exact ⟨_, Run.cons hread (Run.single alone_jump), rfl⟩

/-- The end of the stream sends the listener out of its loop. -/
theorem serve_end {r : ReadResult InputPacket.size} (hr : r.ret = 0) :
    ∃ tr t, Run (Alone spawnListenerThread) (atLoop packet) tr t ∧ t.loc = .exited ∧ readsOf tr = [r] := by
  have hround : Listener.handleRead packet r =
      .call .lock fun _ => .call .clearConnection fun _ => .call .unlock fun _ => .ret .exited := by
    rw [Listener.handleRead, if_neg (by rw [hr]; decide), if_pos (by omega)]
    rfl
  have hread : Alone spawnListenerThread (atLoop packet) (.did .read r) ⟨.loop packet, Listener.handleRead packet r⟩ :=
    alone_did
  rw [hround] at hread
  have hleave : Run (Alone spawnListenerThread)
      ⟨.loop packet, .call .lock fun _ => .call .clearConnection fun _ => .call .unlock fun _ => .ret .exited⟩
      [.did .lock (), .did .clearConnection (), .did .unlock (), .jump .exited]
      (.start spawnListenerThread .exited) :=
    Run.cons alone_did (Run.cons alone_did (Run.cons alone_did (Run.single alone_jump)))
  exact ⟨_, .start spawnListenerThread .exited, Run.cons hread hleave, rfl, rfl⟩

/-- Non-empty pieces are served one round after the other. -/
theorem serve_pieces {rs : List (ReadResult InputPacket.size)} (h : ∀ r ∈ rs, 0 < r.ret) :
    ∃ packet' tr, Run (Alone spawnListenerThread) (atLoop packet) tr (atLoop packet') ∧ readsOf tr = rs := by
  induction rs generalizing packet with
  | nil => exact ⟨packet, [], Run.nil, rfl⟩
  | cons r rs ih =>
      obtain ⟨packet', tr, hrun, hread⟩ := serve_round packet (h r List.mem_cons_self)
      obtain ⟨packet'', tr', hrun', hread'⟩ := ih packet' fun q hq => h q (List.mem_cons_of_mem r hq)
      refine ⟨packet'', tr ++ tr', hrun.append hrun', ?_⟩
      rw [readsOf, List.flatMap_append, List.flatMap_append]
      exact congrArg₂ (· ++ ·) hread hread'

/-- **Every segmentation can be served**: some run of the listener reads exactly its pieces and the end. -/
theorem serve {bytes : Bytes} (s : Segmentation InputPacket.size bytes) :
    ∃ tr t, Run (Alone spawnListenerThread) listener tr t ∧ t.loc = .exited ∧ readsOf tr = answers s := by
  have hpos : ∀ r ∈ s.pieces.pmap ReadResult.data s.fits, 0 < r.ret := by
    intro r hr
    obtain ⟨p, hp, rfl⟩ := List.mem_pmap.mp hr
    exact Int.natCast_pos.mpr (List.length_pos_of_ne_nil (s.nonempty p hp))
  obtain ⟨packet, tr, hrun, hreads⟩ := serve_pieces InputPacket.zero.encode hpos
  obtain ⟨tr', t, hrun', hexit, hread⟩ := serve_end packet (r := .data [] (Nat.zero_le _)) rfl
  refine ⟨tr ++ tr', t, hrun.append hrun', hexit, ?_⟩
  rw [readsOf, List.flatMap_append, List.flatMap_append]
  exact congrArg₂ (· ++ ·) hreads hread

end Serve

/-! ## The stream is decoded iff it was cut between packets -/

section Streams

variable {packets : List InputPacket}

theorem encode_frames : ∀ f ∈ packets.map InputPacket.encode, f.length = InputPacket.size := by
  intro f hf
  obtain ⟨p, -, rfl⟩ := List.mem_map.mp hf
  exact p.encode_length

/-- The full pieces hold the packets that were sent iff there is no other piece. -/
theorem full_decodes_iff (s : Segmentation InputPacket.size (stream packets)) :
    s.full.map InputPacket.ofMem = packets ↔ s.Whole := by
  have hsize : 0 < InputPacket.size := by decide
  constructor
  · intro h
    rw [s.whole_iff_count hsize encode_frames, List.length_map, ← List.length_map InputPacket.ofMem, h]
  · intro hw
    rw [hw.full_eq, hw.pieces_eq hsize encode_frames, List.map_map]
    exact List.map_id'' InputPacket.ofMem_encode packets

end Streams

/-- An event of `b`s. -/
def eventOf (b : UInt8) : InputEvent := ⟨List.replicate 24 b, List.length_replicate⟩

def twoPackets : List InputPacket := [⟨1, eventOf 1⟩, ⟨2, eventOf 2⟩]

/-- Half a packet, two halves of different packets, half a packet. -/
def cutInHalves : Segmentation InputPacket.size (stream twoPackets) where
  pieces   := [(stream twoPackets).take 16, ((stream twoPackets).drop 16).take 32, (stream twoPackets).drop 48]
  nonempty := by decide
  fits     := by decide
  joined   := by decide

end IOSwitch.Wire
