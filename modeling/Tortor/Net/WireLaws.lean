import Mathlib.Data.List.GetD
import Tortor.Lib.Framing
import Tortor.Net.Wire

namespace Tortor.Net

open Tortor.Lib

/-- The front of the byte stream, read without a decoder: a four-byte length, then as many
bytes, of which the first is the id. -/
def wireHead (xs : List UInt8) : Verdict PeerMessage String :=
  if xs.length < 4 then .more
  else
    let len := be32 xs 0
    if MAX_MESSAGE_LEN < len then .fail s!"peer message too large: {len} bytes"
    else if xs.length < 4 + len then .more
    else if len = 0 then .emit .keepAlive 4
    else match PeerMessage.parse (xs.getD 4 0) ((xs.take (4 + len)).drop 5) with
      | .error error => .fail error
      | .ok none => .skip (4 + len)
      | .ok (some msg) => .emit msg (4 + len)

theorem be32_append {xs : List UInt8} {offset : Nat} (h : offset + 4 ≤ xs.length)
    (ys : List UInt8) : be32 (xs ++ ys) offset = be32 xs offset := by
  have hbyte (i : Nat) (hi : i < 4) : (xs ++ ys).getD (offset + i) 0 = xs.getD (offset + i) 0 :=
    List.getD_append _ _ _ _ (by omega)
  simp only [be32, hbyte 0 (by decide), hbyte 1 (by decide), hbyte 2 (by decide), hbyte 3 (by decide)]

def wireFraming : Framing UInt8 PeerMessage String where
  head := wireHead
  head_append xs ys h := by
    by_cases hshort : xs.length < 4
    · exact absurd (by simp [wireHead, hshort]) h
    have hlen : be32 (xs ++ ys) 0 = be32 xs 0 := be32_append (by omega) ys
    have hshort' : ¬ (xs ++ ys).length < 4 := by rw [List.length_append]; omega
    simp only [wireHead, hshort, hshort', hlen, if_false] at h ⊢
    split
    · rfl
    · rename_i hmax
      simp only [hmax, if_false] at h
      by_cases hmore : xs.length < 4 + be32 xs 0
      · exact absurd (by simp [hmore]) h
      have hmore' : ¬ (xs ++ ys).length < 4 + be32 xs 0 := by rw [List.length_append]; omega
      simp only [hmore, hmore', if_false]
      split
      · rfl
      · rw [List.take_append_of_le_length (by omega), List.getD_append _ _ _ _ (by omega)]
  skip_used xs used h := by
    unfold wireHead at h
    grind
  emit_used xs message used h := by
    unfold wireHead at h
    grind

theorem be32_toBe32 {n : Nat} (h : n < 2 ^ 32) (head tail : List UInt8) :
    be32 (head ++ (toBe32 n ++ tail)) head.length = n := by
  have hbyte (i : Nat) (hi : i < 4) :
      (head ++ (toBe32 n ++ tail)).getD (head.length + i) 0 = (toBe32 n).getD i 0 := by
    rw [List.getD_append_right _ _ _ _ (by omega), Nat.add_sub_cancel_left,
      List.getD_append _ _ _ _ (by simpa [toBe32] using hi)]
  simp only [be32, hbyte 0 (by decide), hbyte 1 (by decide), hbyte 2 (by decide),
    hbyte 3 (by decide)]
  simp [toBe32]
  omega

@[simp] theorem length_toBe32 (n : Nat) : (toBe32 n).length = 4 := rfl

namespace PeerMessage

def body : PeerMessage → List UInt8
  | .have index => toBe32 index
  | .bitfield payload => payload
  | .request index begin length => toBe32 index ++ (toBe32 begin ++ toBe32 length)
  | .piece index begin block => toBe32 index ++ (toBe32 begin ++ block)
  | .extended id payload => id :: payload
  | _ => []

def wireId : PeerMessage → UInt8
  | .choke | .keepAlive => 0
  | .unchoke => 1
  | .interested => 2
  | .notInterested => 3
  | .have _ => 4
  | .bitfield _ => 5
  | .request .. => 6
  | .piece .. => 7
  | .extended .. => 20

theorem send_eq {msg : PeerMessage} (h : msg ≠ .keepAlive) :
    msg.send = toBe32 (1 + msg.body.length) ++ msg.wireId :: msg.body := by
  cases msg with
  | keepAlive => exact absurd rfl h
  | «have» index => rfl
  | request index begin length => rfl
  | bitfield payload => simp [send, sendBitfield, body, wireId]
  | piece index begin block =>
    have hlen : 1 + (4 + (4 + block.length)) = 9 + block.length := by omega
    simp [send, sendPiece, body, wireId, hlen]
  | extended id payload =>
    have hlen : 1 + (payload.length + 1) = 2 + payload.length := by omega
    simp [send, sendExtended, body, wireId, hlen]
  | _ => rfl

theorem length_body_le {msg : PeerMessage} (h : msg.Sendable) :
    1 + msg.body.length ≤ MAX_MESSAGE_LEN := by
  cases msg with
  | bitfield payload => exact h
  | piece index begin block =>
    have hlen : 9 + block.length ≤ MAX_MESSAGE_LEN := h.2.2
    simp only [body, List.length_append, length_toBe32]
    omega
  | extended id payload =>
    have hlen : 2 + payload.length ≤ MAX_MESSAGE_LEN := h
    simp only [body, List.length_cons]
    omega
  | _ => simp [body, MAX_MESSAGE_LEN]

theorem parse_body {msg : PeerMessage} (h : msg.Sendable) (hk : msg ≠ .keepAlive) :
    parse msg.wireId msg.body = .ok (some msg) := by
  cases msg with
  | keepAlive => exact absurd rfl hk
  | «have» index =>
    have hindex := be32_toBe32 h [] []
    simp only [List.nil_append, List.append_nil, List.length_nil] at hindex
    simp [parse, wireId, body, hindex]
  | request index begin length =>
    obtain ⟨hi, hb, hl⟩ := h
    have hindex := be32_toBe32 hi [] (toBe32 begin ++ toBe32 length)
    have hbegin := be32_toBe32 hb (toBe32 index) (toBe32 length)
    have hlength := be32_toBe32 hl (toBe32 index ++ toBe32 begin) []
    simp only [List.nil_append, List.append_nil, List.append_assoc, List.length_append,
      List.length_nil, length_toBe32] at hindex hbegin hlength
    simp [parse, wireId, body, hindex, hbegin, hlength]
  | piece index begin block =>
    obtain ⟨hi, hb, -⟩ := h
    have hindex := be32_toBe32 hi [] (toBe32 begin ++ block)
    have hbegin := be32_toBe32 hb (toBe32 index) block
    have hdrop : (toBe32 index ++ (toBe32 begin ++ block)).drop 8 = block := rfl
    simp only [List.nil_append, List.length_nil, length_toBe32] at hindex hbegin
    simp [parse, wireId, body, hindex, hbegin, hdrop]
    omega
  | _ => rfl

theorem wireHead_send {msg : PeerMessage} (h : msg.Sendable) (rest : List UInt8) :
    wireHead (msg.send ++ rest) = .emit msg msg.send.length := by
  by_cases hk : msg = .keepAlive
  · subst hk
    have hlong : ¬ rest.length + 1 + 1 + 1 + 1 < 4 := by omega
    simp [wireHead, send, sendKeepAlive, be32, hlong]
  have hlen := length_body_le h
  have hsmall : 1 + msg.body.length < 2 ^ 32 := by unfold MAX_MESSAGE_LEN at hlen; omega
  have hfront : msg.send ++ rest =
      toBe32 (1 + msg.body.length) ++ msg.wireId :: (msg.body ++ rest) := by
    rw [send_eq hk, List.append_assoc, List.cons_append]
  have htotal : msg.send.length = 4 + (1 + msg.body.length) := by
    rw [send_eq hk, List.length_append, List.length_cons, length_toBe32]
    omega
  have hbe := be32_toBe32 hsmall [] (msg.wireId :: (msg.body ++ rest))
  rw [List.nil_append, List.length_nil, ← hfront] at hbe
  have hid : (msg.send ++ rest).getD 4 0 = msg.wireId := by rw [hfront]; rfl
  have hbody : ((msg.send ++ rest).take (4 + (1 + msg.body.length))).drop 5 = msg.body := by
    rw [← htotal, List.take_left', send_eq hk]
    · rfl
    · rfl
  have hroom : ¬ (msg.send ++ rest).length < 4 + (1 + msg.body.length) := by
    rw [List.length_append]; omega
  have hshort : ¬ (msg.send ++ rest).length < 4 := by omega
  simp only [wireHead, hshort, if_false, hbe, Nat.not_lt.mpr hlen, hroom, hid, hbody,
    parse_body h hk, htotal]
  rw [if_neg (by omega)]

theorem reads_send (msgs : List PeerMessage) (h : ∀ msg ∈ msgs, msg.Sendable) :
    wireFraming.Reads (msgs.flatMap send) msgs [] := by
  induction msgs with
  | nil => exact .stop _
  | cons msg msgs ih =>
    refine .emit (wireHead_send (h msg List.mem_cons_self) _) ?_
    rw [List.flatMap_cons, List.drop_left]
    exact ih fun msg hm => h msg (List.mem_cons_of_mem _ hm)

end PeerMessage

namespace MessageDecoder

def pending (self : MessageDecoder) : List UInt8 := self.buf.drop self.pos

def Valid (self : MessageDecoder) : Prop := self.pos ≤ self.buf.length

theorem valid_new : new.Valid := Nat.le_refl 0

theorem compact_spec {d : MessageDecoder} (h : d.Valid) :
    d.compact.Valid ∧ d.compact.pending = d.pending := by
  unfold compact
  split
  case isTrue he => exact ⟨Nat.le_refl 0, by simp [pending, he]⟩
  case isFalse =>
    split
    case isTrue => exact ⟨Nat.zero_le _, by simp [pending]⟩
    case isFalse => exact ⟨h, rfl⟩

theorem feed_spec {d : MessageDecoder} (h : d.Valid) (data : List UInt8) :
    (d.feed data).Valid ∧ (d.feed data).pending = d.pending ++ data := by
  constructor
  · rw [Valid, feed, List.length_append]
    exact Nat.le_add_right_of_le h
  · rw [pending, feed, pending, List.drop_append_of_le_length h]

def advance (d : MessageDecoder) (used : Nat) : MessageDecoder := { d with pos := d.pos + used }

theorem pending_advance (d : MessageDecoder) (used : Nat) :
    (d.advance used).pending = d.pending.drop used := by
  rw [pending, pending, advance, List.drop_drop]

theorem valid_advance {d : MessageDecoder} {used : Nat} (h : d.Valid)
    (hu : used ≤ d.pending.length) : (d.advance used).Valid := by
  rw [pending, List.length_drop] at hu
  exact Nat.add_le_of_le_sub' h hu

theorem decodeLoop_succ (fuel : Nat) (d : MessageDecoder) :
    decodeLoop (fuel + 1) d =
      match wireFraming.head d.pending with
      | .more => (.ok none, d.compact)
      | .fail error => (.error error, d)
      | .skip used => decodeLoop fuel (d.advance used)
      | .emit msg used => (.ok (some msg), d.advance used) := by
  simp only [decodeLoop, wireFraming, wireHead, pending, advance]
  split
  · rfl
  · split
    · rfl
    · split
      · rfl
      · by_cases hzero : be32 (d.buf.drop d.pos) 0 = 0
        · simp only [hzero, if_true]
        · simp only [hzero, if_false]
          rcases PeerMessage.parse _ _ with error | _ | msg <;> rfl

theorem decode_of_more {d : MessageDecoder} (h : wireFraming.head d.pending = .more) :
    d.decode = (.ok none, d.compact) := by
  rw [decode, decodeLoop_succ, h]

theorem decodeLoop_spec {fuel : Nat} {d : MessageDecoder} (h : d.Valid)
    (hf : d.pending.length < fuel) :
    (∃ e : MessageDecoder, decodeLoop fuel d = (.ok none, e.compact) ∧ e.Valid ∧
      wireFraming.head e.pending = .more ∧ wireFraming.Reads d.pending [] e.pending) ∨
    (∃ msg d', decodeLoop fuel d = (.ok (some msg), d') ∧ d'.Valid ∧
      wireFraming.Reads d.pending [msg] d'.pending) ∨
    ∃ error d', decodeLoop fuel d = (.error error, d') ∧
      ∃ rest, wireFraming.Reads d.pending [] rest ∧ wireFraming.head rest = .fail error := by
  induction fuel generalizing d with
  | zero => exact absurd hf (Nat.not_lt_zero _)
  | succ fuel ih =>
    rw [decodeLoop_succ]
    cases hv : wireFraming.head d.pending with
    | more => exact .inl ⟨d, rfl, h, hv, .stop _⟩
    | fail error => exact .inr (.inr ⟨error, d, rfl, _, .stop _, hv⟩)
    | emit msg used =>
      have hu := wireFraming.emit_used _ _ _ hv
      refine .inr (.inl ⟨msg, d.advance used, rfl, valid_advance h hu.2, ?_⟩)
      rw [pending_advance]
      exact .emit hv (.stop _)
    | skip used =>
      have hu := wireFraming.skip_used _ _ hv
      have hlen : (d.advance used).pending.length + used = d.pending.length := by
        rw [pending_advance, List.length_drop]; omega
      have hskip {messages : List PeerMessage} {rest : List UInt8}
          (hr : wireFraming.Reads (d.advance used).pending messages rest) :
          wireFraming.Reads d.pending messages rest := by
        rw [pending_advance] at hr
        exact .skip hv hr
      rcases ih (valid_advance h hu.2) (by omega) with ⟨e, hd, he, hm, hr⟩ |
        ⟨msg, d', hd, hd', hr⟩ | ⟨error, d', hd, rest, hr, hfail⟩
      · exact .inl ⟨e, hd, he, hm, hskip hr⟩
      · exact .inr (.inl ⟨msg, d', hd, hd', hskip hr⟩)
      · exact .inr (.inr ⟨error, d', hd, rest, hskip hr, hfail⟩)

theorem length_pending (d : MessageDecoder) : d.pending.length < d.buf.length + 1 := by
  rw [pending, List.length_drop]; omega

def decoder : Decoder MessageDecoder UInt8 PeerMessage String := ⟨feed, decode⟩

def decodesWire : Decodes wireFraming decoder where
  pending := pending
  Valid := Valid
  feed_spec d data h := feed_spec h data
  none_spec d d' h hd := by
    change decodeLoop _ d = _ at hd
    rcases decodeLoop_spec h d.length_pending with ⟨e, he, hs⟩ | ⟨msg, e, he, hs⟩ | ⟨error, e, he, hs⟩
    all_goals rw [hd] at he; cases he
    rw [(compact_spec hs.1).2]
    exact ⟨(compact_spec hs.1).1, hs.2⟩
  some_spec d d' message h hd := by
    change decodeLoop _ d = _ at hd
    rcases decodeLoop_spec h d.length_pending with ⟨e, he, hs⟩ | ⟨msg, e, he, hs⟩ | ⟨error, e, he, hs⟩
    all_goals rw [hd] at he; cases he
    exact hs
  error_spec d d' error h hd := by
    change decodeLoop _ d = _ at hd
    rcases decodeLoop_spec h d.length_pending with ⟨e, he, hs⟩ | ⟨msg, e, he, hs⟩ | ⟨error, e, he, hs⟩
    all_goals rw [hd] at he; cases he
    exact hs

/-- Decodes until `None` or an error; every message takes bytes from the buffer. -/
def drain (r : Reader MessageDecoder PeerMessage String) :
    Reader MessageDecoder PeerMessage String :=
  r.drain decoder (r.decoder.buf.length + 1)

theorem buf_of_decode_none {d d' : MessageDecoder} (h : d.Valid) (hd : d.decode = (.ok none, d'))
    (hp : d'.pending = []) : d'.buf = [] := by
  change decodeLoop _ d = _ at hd
  rcases decodeLoop_spec h d.length_pending with ⟨e, he, hv, -⟩ | ⟨msg, e, he, hs⟩ | ⟨error, e, he, hs⟩
  all_goals rw [hd] at he; cases he
  rw [(compact_spec hv).2, pending, List.drop_eq_nil_iff] at hp
  have hall : e.pos = e.buf.length := Nat.le_antisymm hv hp
  rw [compact, if_pos hall]

theorem drain_spec (ops : List (ReaderOp UInt8)) :
    let r := drain (exec (Reader.step decoder) (Reader.new new) ops)
    let fed := ops.flatMap ReaderOp.data
    (r.messages, r.error) = wireFraming.scan fed ∧
      (r.error = none → wireFraming.Reads fed r.messages r.decoder.pending ∧
        ∃ d : MessageDecoder, d.Valid ∧ d.decode = (.ok none, r.decoder)) := by
  intro r fed
  have hfuel := length_pending (exec (Reader.step decoder) (Reader.new new) ops).decoder
  have htracks : decodesWire.Tracks fed (exec (Reader.step decoder) (Reader.new new) ops) :=
    decodesWire.tracks_exec (decodesWire.tracks_new valid_new) ops
  refine ⟨decodesWire.scan_drain htracks hfuel, fun he => ?_⟩
  obtain ⟨ht, hlast⟩ := decodesWire.tracks_drain htracks hfuel
  refine ⟨?_, hlast he⟩
  have ht' : decodesWire.Tracks fed r := ht
  simp only [Decodes.Tracks, he] at ht'
  exact ht'.2

theorem decode_drained (ops : List (ReaderOp UInt8))
    (h : (drain (exec (Reader.step decoder) (Reader.new new) ops)).error = none) :
    (drain (exec (Reader.step decoder) (Reader.new new) ops)).decoder.decode.1 = .ok none := by
  obtain ⟨d, hv, hd⟩ := ((drain_spec ops).2 h).2
  exact congrArg Prod.fst (decode_of_more (decodesWire.none_spec _ _ hv hd).2.1)

/-- Cutting the stream into portions and asking for messages in between changes neither the
messages up to the first error nor that error.  Both are those that scanning the stream frame by
frame gives. -/
theorem chunking_invisible (ops : List (ReaderOp UInt8)) :
    let cut := drain (exec (Reader.step decoder) (Reader.new new) ops)
    let whole := drain (Reader.new (new.feed (ops.flatMap ReaderOp.data)))
    (cut.messages, cut.error) = wireFraming.scan (ops.flatMap ReaderOp.data) ∧
      cut.messages = whole.messages ∧ cut.error = whole.error ∧
      (cut.error = none → (cut.decoder.decode).1 = .ok none) ∧
      (whole.error = none → (whole.decoder.decode).1 = .ok none) := by
  have hcut := (drain_spec ops).1
  have hwhole := (drain_spec [.feed (ops.flatMap ReaderOp.data)]).1
  rw [show [ReaderOp.feed (ops.flatMap ReaderOp.data)].flatMap ReaderOp.data =
    ops.flatMap ReaderOp.data from by simp [ReaderOp.data]] at hwhole
  have heq := Prod.mk.inj (hcut.trans hwhole.symm)
  exact ⟨hcut, heq.1, heq.2, decode_drained ops, decode_drained [.feed (ops.flatMap ReaderOp.data)]⟩

/-- Whatever is sent, in whatever portions it arrives and whenever messages are asked for: the
decoder gives the messages that were sent and keeps nothing. -/
theorem messages_sent (msgs : List PeerMessage) (h : ∀ msg ∈ msgs, msg.Sendable)
    (ops : List (ReaderOp UInt8)) (hops : ops.flatMap ReaderOp.data = msgs.flatMap PeerMessage.send) :
    let r := drain (exec (Reader.step decoder) (Reader.new new) ops)
    r.messages = msgs ∧ r.error = none ∧ r.decoder.buf = [] := by
  intro r
  obtain ⟨hscan, hdrained⟩ := drain_spec ops
  have hsent := PeerMessage.reads_send msgs h
  rw [hops, hsent.scan_eq, Framing.scan_more rfl, List.append_nil] at hscan
  have herror : r.error = none := congrArg Prod.snd hscan
  obtain ⟨hreads, d, hvalid, hd⟩ := hdrained herror
  have hempty : r.decoder.pending = [] := by
    rw [hops] at hreads
    exact hreads.rest_eq (decodesWire.none_spec _ _ hvalid hd).2.1 hsent rfl
  exact ⟨congrArg Prod.fst hscan, herror, buf_of_decode_none hvalid hd hempty⟩

theorem messages_sent_request_piece :
    let msgs : List PeerMessage := [.request 1 2 16384, .piece 1 2 [0xAA, 0xBB]]
    let bytes := msgs.flatMap PeerMessage.send
    let r := drain (exec (Reader.step decoder) (Reader.new new)
      [.feed (bytes.take 19), .decode, .decode, .feed (bytes.drop 19)])
    r.messages = msgs ∧ r.error = none ∧ r.decoder.buf = [] :=
  messages_sent [.request 1 2 16384, .piece 1 2 [0xAA, 0xBB]]
    (by simp [PeerMessage.Sendable, MAX_MESSAGE_LEN])
    [.feed (([.request 1 2 16384, .piece 1 2 [0xAA, 0xBB]] : List PeerMessage).flatMap
        PeerMessage.send |>.take 19), .decode, .decode,
      .feed (([.request 1 2 16384, .piece 1 2 [0xAA, 0xBB]] : List PeerMessage).flatMap
        PeerMessage.send |>.drop 19)]
    (by decide)

end MessageDecoder

end Tortor.Net
