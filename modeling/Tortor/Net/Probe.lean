import Tortor.Lib.Pipe
import Tortor.Net.Engine

/-! A probe: one engine dials another over TCP and QUIC at the same time and runs a session on the
connection whose handshake completes first.  The other engine takes both connections as they come,
while its torrents come and go. -/

namespace Tortor.Net

open Tortor.Core Tortor.Lib

inductive DialError
  | connect
  | write
  | read
  | handshake (error : HandshakeError)
  | infoHashMismatch
  | ourselves
  deriving DecidableEq

def checkRemote (remote : Handshake) (infoHash peerId : Digest) : Except DialError Bool :=
  if remote.infoHash ≠ infoHash then .error .infoHashMismatch
  else if remote.peerId = peerId then .error .ourselves
  else .ok remote.supportsExtensionProtocol

inductive Dial
  | connecting
  /-- Of the handshake, `left` has still to be written. -/
  | writing (left : List UInt8)
  | reading
  | dialed (supportsExt : Bool)
  | failed (error : DialError)
  deriving DecidableEq

namespace Dial

def result : Dial → Option (Except DialError Bool)
  | dialed supportsExt => some (.ok supportsExt)
  | failed error => some (.error error)
  | _ => none

def wrote (n : Nat) : Dial → Dial
  | writing left => if left.length ≤ n then reading else writing (left.drop n)
  | self => self

def receive (infoHash peerId : Digest) (incoming : List UInt8) : Dial :=
  match Handshake.fromBytes incoming with
  | .error error => failed (.handshake error)
  | .ok remote =>
    match checkRemote remote infoHash peerId with
    | .error error => failed error
    | .ok supportsExt => dialed supportsExt

def fail : Dial → Dial
  | connecting => failed .connect
  | writing _ => failed .write
  | reading => failed .read
  | self => self

end Dial

structure Connection (R : Type) where
  dial : Dial
  inbound : Inbound R
  toInbound : Pipe UInt8
  toDialer : Pipe UInt8

namespace Connection

variable {R : Type}

def new : Connection R := ⟨.connecting, .reading, .empty, .empty⟩

def connected (infoHash peerId : Digest) (self : Connection R) : Connection R :=
  match self.dial with
  | .connecting => { self with dial := .writing (Handshake.new infoHash peerId).asBytes }
  | _ => self

def dialWrites (n : Nat) (self : Connection R) : Connection R :=
  match self.dial with
  | .writing left =>
    { self with dial := self.dial.wrote n, toInbound := self.toInbound.write (left.take n) }
  | _ => self

def dialReads (infoHash peerId : Digest) (self : Connection R) : Connection R :=
  match self.dial, self.toDialer.readExact Handshake.HANDSHAKE_LEN with
  | .reading, some (incoming, toDialer) =>
    { self with dial := .receive infoHash peerId incoming, toDialer := toDialer }
  | _, _ => self

def inboundReads (engine : Engine R) (self : Connection R) : Connection R :=
  match self.inbound, self.toInbound.readExact Handshake.HANDSHAKE_LEN with
  | .reading, some (incoming, toInbound) =>
    { self with inbound := .receive engine incoming, toInbound := toInbound }
  | _, _ => self

def inboundWrites (n : Nat) (self : Connection R) : Connection R :=
  match self.inbound with
  | .replying _ _ left =>
    { self with inbound := self.inbound.wrote n, toDialer := self.toDialer.write (left.take n) }
  | _ => self

def inboundSends (bytes : List UInt8) (self : Connection R) : Connection R :=
  match self.inbound with
  | .running .. => { self with toDialer := self.toDialer.write bytes }
  | _ => self

end Connection

inductive ProbeState
  | waiting (firstErr : Option DialError)
  | running (via : Transport) (supportsExt : Bool)
  | failed (first last : DialError)
  | finished (via : Transport) (supportsExt : Bool)

structure Probe (R : Type) where
  infoHash : Digest
  peerId : Digest
  engine : Engine R
  connection : Transport → Connection R
  /-- The channel from the dialers to the probe. -/
  results : List (Transport × Except DialError Bool)
  state : ProbeState

inductive ProbeEvent (R : Type)
  | register (infoHash : Digest) (registration : R)
  | unregister (infoHash : Digest)
  | connected (via : Transport)
  | dialWrites (via : Transport) (n : Nat)
  | dialReads (via : Transport)
  | dialFails (via : Transport)
  | inboundReads (via : Transport)
  | inboundWrites (via : Transport) (n : Nat)
  | inboundSends (via : Transport) (bytes : List UInt8)
  | inboundFails (via : Transport)
  | recv
  | sends (bytes : List UInt8)
  | finish

namespace Probe

variable {R : Type}

def start (infoHash peerId : Digest) (engine : Engine R) : Probe R :=
  ⟨infoHash, peerId, engine, fun _ => .new, [], .waiting none⟩

def update (via : Transport) (connection : Connection R) (s : Probe R) : Probe R :=
  { s with
    connection := fun v => if v = via then connection else s.connection v
    results :=
      match (s.connection via).dial.result, connection.dial.result with
      | none, some result => s.results ++ [(via, result)]
      | _, _ => s.results }

def step (s : Probe R) : ProbeEvent R → Probe R
  | .register infoHash registration =>
    { s with engine := s.engine.register infoHash registration }
  | .unregister infoHash => { s with engine := s.engine.unregister infoHash }
  | .connected via => s.update via ((s.connection via).connected s.infoHash s.peerId)
  | .dialWrites via n => s.update via ((s.connection via).dialWrites n)
  | .dialReads via => s.update via ((s.connection via).dialReads s.infoHash s.peerId)
  | .dialFails via =>
    s.update via { s.connection via with dial := (s.connection via).dial.fail }
  | .inboundReads via => s.update via ((s.connection via).inboundReads s.engine)
  | .inboundWrites via n => s.update via ((s.connection via).inboundWrites n)
  | .inboundSends via bytes => s.update via ((s.connection via).inboundSends bytes)
  | .inboundFails via =>
    s.update via { s.connection via with inbound := (s.connection via).inbound.fail }
  | .recv =>
    match s.state, s.results with
    | .waiting _, (via, .ok supportsExt) :: results =>
      { s with state := .running via supportsExt, results := results }
    | .waiting none, (_, .error error) :: results =>
      { s with state := .waiting (some error), results := results }
    | .waiting (some first), (_, .error error) :: results =>
      { s with state := .failed first error, results := results }
    | _, _ => s
  | .sends bytes =>
    match s.state with
    | .running via _ =>
      { s with connection := fun v =>
          if v = via then
            { s.connection v with toInbound := (s.connection v).toInbound.write bytes }
          else s.connection v }
    | _ => s
  | .finish =>
    match s.state with
    | .running via supportsExt => { s with state := .finished via supportsExt }
    | _ => s

end Probe

theorem length_handshake (infoHash peerId : Digest) :
    (Handshake.new infoHash peerId).asBytes.length = Handshake.HANDSHAKE_LEN :=
  Handshake.length_asBytes _

def Dial.Wrote (hello : List UInt8) (used : Bool) : Dial → List UInt8 → Prop
  | .connecting, bytes => bytes = []
  | .writing left, bytes => bytes ++ left = hello
  | .reading, bytes => bytes = hello
  | .dialed _, bytes => hello <+: bytes ∧ (used = false → bytes = hello)
  | .failed _, bytes => bytes <+: hello

variable {R : Type}

def Inbound.Wrote (hello : List UInt8) : Inbound R → List UInt8 → Prop
  | .reading, bytes => bytes = []
  | .replying _ _ left, bytes => bytes ++ left = hello ∧ left ≠ []
  | .running .., bytes | .ended .., bytes => hello <+: bytes
  | .failed _, bytes => bytes <+: hello ∧ bytes ≠ hello

namespace Connection

/-- A connection from `peerId` to `other` about the torrent `infoHash`; `used` tells whether the
dialer runs a session on it. -/
structure Sound (infoHash peerId other : Digest) (used : Bool) (c : Connection R) : Prop where
  dialer : c.dial.Wrote (Handshake.new infoHash peerId).asBytes used c.toInbound.written
  inbound : c.inbound.Wrote (Handshake.new infoHash other).asBytes c.toDialer.written
  unread : c.inbound = .reading → c.toInbound.taken = 0
  routed : ∀ registration supportsExt, c.inbound.routed = some (registration, supportsExt) →
    supportsExt = true ∧ peerId ≠ other ∧ c.toInbound.taken = Handshake.HANDSHAKE_LEN
  unanswered : c.dial.result = none → c.toDialer.taken = 0
  agreed : ∀ supportsExt, c.dial = .dialed supportsExt → supportsExt = true ∧
    c.toDialer.taken = Handshake.HANDSHAKE_LEN ∧
    ∃ registration, c.inbound.session = some (registration, true)

variable {infoHash peerId other : Digest} {used : Bool} {c : Connection R}

theorem sound_new : (Connection.new : Connection R).Sound infoHash peerId other used :=
  ⟨rfl, rfl, fun _ => rfl, nofun, fun _ => rfl, nofun⟩

theorem Sound.mono {used' : Bool} (h : c.Sound infoHash peerId other used)
    (hused : used' = false → used = false) : c.Sound infoHash peerId other used' := by
  refine ⟨?_, h.inbound, h.unread, h.routed, h.unanswered, h.agreed⟩
  have hdialer := h.dialer
  cases hdial : c.dial with
  | dialed =>
    rw [hdial] at hdialer
    exact ⟨hdialer.1, fun hno => hdialer.2 (hused hno)⟩
  | _ =>
    rw [hdial] at hdialer
    exact hdialer

theorem Sound.connected (h : c.Sound infoHash peerId other used) :
    (c.connected infoHash peerId).Sound infoHash peerId other used := by
  unfold Connection.connected
  split
  case h_1 hdial =>
    have hwritten : c.toInbound.written = [] := by
      have := h.dialer
      rwa [hdial] at this
    exact ⟨by rw [Dial.Wrote, hwritten, List.nil_append], h.inbound, h.unread, h.routed,
      fun _ => h.unanswered (by rw [hdial]; rfl), nofun⟩
  case h_2 => exact h

theorem Sound.dialWrites (h : c.Sound infoHash peerId other used) (n : Nat) :
    (c.dialWrites n).Sound infoHash peerId other used := by
  unfold Connection.dialWrites
  split
  case h_1 left hdial =>
    have hwritten : c.toInbound.written ++ left = (Handshake.new infoHash peerId).asBytes := by
      have := h.dialer
      rwa [hdial] at this
    have hfresh := h.unanswered (by rw [hdial]; rfl)
    rw [hdial, Dial.wrote]
    split
    case isTrue hle =>
      refine ⟨?_, h.inbound, h.unread, h.routed, fun _ => hfresh, nofun⟩
      rw [List.take_of_length_le hle]
      exact hwritten
    case isFalse =>
      refine ⟨?_, h.inbound, h.unread, h.routed, fun _ => hfresh, nofun⟩
      rw [Dial.Wrote, Pipe.written_write, List.append_assoc, List.take_append_drop]
      exact hwritten
  case h_2 => exact h

theorem Sound.dialFails (h : c.Sound infoHash peerId other used) :
    { c with dial := c.dial.fail }.Sound infoHash peerId other used := by
  have hdialer := h.dialer
  cases hdial : c.dial with
  | dialed | failed =>
    have hsame : c.dial.fail = c.dial := by rw [hdial]; rfl
    rw [← hdial, hsame]
    exact h
  | connecting =>
    rw [hdial] at hdialer
    exact ⟨by rw [show c.toInbound.written = [] from hdialer]; exact List.nil_prefix, h.inbound,
      h.unread, h.routed, nofun, nofun⟩
  | writing left =>
    rw [hdial] at hdialer
    exact ⟨⟨left, hdialer⟩, h.inbound, h.unread, h.routed, nofun, nofun⟩
  | reading =>
    rw [hdial] at hdialer
    exact ⟨by rw [show c.toInbound.written = _ from hdialer]; exact List.prefix_refl _, h.inbound,
      h.unread, h.routed, nofun, nofun⟩

theorem Sound.incoming (h : c.Sound infoHash peerId other used) (hreading : c.inbound = .reading)
    {incoming : List UInt8} {rest : Pipe UInt8}
    (hread : c.toInbound.readExact Handshake.HANDSHAKE_LEN = some (incoming, rest)) :
    incoming = (Handshake.new infoHash peerId).asBytes := by
  have hlen := length_handshake infoHash peerId
  have htaken := h.unread hreading
  have hwithin (hle : c.toInbound.written <+: (Handshake.new infoHash peerId).asBytes) :=
    (Pipe.readExact_within hread htaken hle hlen).1
  have hdialer := h.dialer
  cases hdial : c.dial with
  | connecting =>
    rw [hdial] at hdialer
    exact hwithin (by rw [show c.toInbound.written = [] from hdialer]; exact List.nil_prefix)
  | writing left =>
    rw [hdial] at hdialer
    exact hwithin ⟨left, hdialer⟩
  | reading =>
    rw [hdial] at hdialer
    exact hwithin (by rw [show c.toInbound.written = _ from hdialer])
  | dialed =>
    rw [hdial] at hdialer
    exact Pipe.readExact_prefix hread htaken hdialer.1 hlen
  | failed =>
    rw [hdial] at hdialer
    exact hwithin hdialer

theorem Sound.not_dialed (h : c.Sound infoHash peerId other used)
    (hsession : c.inbound.session = none) (supportsExt : Bool) : c.dial ≠ .dialed supportsExt := by
  intro hdial
  obtain ⟨-, -, registration, hsome⟩ := h.agreed supportsExt hdial
  cases hsession.symm.trans hsome

theorem Sound.inboundReads {engine : Engine R} (h : c.Sound infoHash peerId engine.peerId used) :
    (c.inboundReads engine).Sound infoHash peerId engine.peerId used := by
  unfold Connection.inboundReads
  split
  case h_2 => exact h
  case h_1 incoming rest hreading hread =>
    have hincoming := h.incoming hreading hread
    have hwritten : c.toDialer.written = [] := by
      have := h.inbound
      rwa [hreading] at this
    have hnone := h.not_dialed (by rw [hreading]; rfl)
    have hdialer : c.dial.Wrote (Handshake.new infoHash peerId).asBytes used rest.written := by
      rw [Pipe.written_readExact hread]
      exact h.dialer
    have htaken : rest.taken = Handshake.HANDSHAKE_LEN := by
      rw [(Pipe.taken_readExact hread).1, h.unread hreading, Nat.zero_add]
    have hlen := length_handshake infoHash engine.peerId
    rw [hincoming, Inbound.receive_asBytes]
    split
    case h_1 =>
      refine ⟨hdialer, ⟨?_, ?_⟩, nofun, nofun, h.unanswered, fun s hs => absurd hs (hnone s)⟩
      · rw [hwritten]
        exact List.nil_prefix
      · rw [hwritten]
        intro he
        rw [← he] at hlen
        cases hlen
    case h_2 registration supportsExt hroute =>
      obtain ⟨hne, -, hsupports⟩ := Engine.route_eq_ok.mp hroute
      refine ⟨hdialer, ⟨?_, ?_⟩, nofun, fun _ _ he => ?_, h.unanswered,
        fun s hs => absurd hs (hnone s)⟩
      · rw [hwritten]
        rfl
      · exact List.ne_nil_of_length_pos (by rw [Handshake.length_asBytes]; decide)
      · cases he
        exact ⟨hsupports.symm.trans (Handshake.supportsExtensionProtocol_new _ _), hne, htaken⟩

theorem Sound.inboundWrites (h : c.Sound infoHash peerId other used) (n : Nat) :
    (c.inboundWrites n).Sound infoHash peerId other used := by
  unfold Connection.inboundWrites
  split
  case h_2 => exact h
  case h_1 registration supportsExt left hreplying =>
    have hwritten : c.toDialer.written ++ left = (Handshake.new infoHash other).asBytes ∧
        left ≠ [] := by
      have := h.inbound
      rwa [hreplying] at this
    have hnone := h.not_dialed (by rw [hreplying]; rfl)
    have hrouted := h.routed
    rw [hreplying] at hrouted
    rw [hreplying, Inbound.wrote]
    split
    case isTrue hle =>
      refine ⟨h.dialer, ?_, (by rintro ⟨⟩), hrouted, h.unanswered, fun s hs => absurd hs (hnone s)⟩
      rw [List.take_of_length_le hle, Inbound.Wrote, Pipe.written_write, hwritten.1]
    case isFalse hlt =>
      refine ⟨h.dialer, ⟨?_, ?_⟩, (by rintro ⟨⟩), hrouted, h.unanswered, fun s hs => absurd hs (hnone s)⟩
      · rw [Pipe.written_write, List.append_assoc, List.take_append_drop]
        exact hwritten.1
      · intro hnil
        exact hlt (List.drop_eq_nil_iff.mp hnil)

theorem Sound.inboundSends (h : c.Sound infoHash peerId other used) (bytes : List UInt8) :
    (c.inboundSends bytes).Sound infoHash peerId other used := by
  unfold Connection.inboundSends
  split
  case h_2 => exact h
  case h_1 registration supportsExt hrunning =>
    have hwritten : (Handshake.new infoHash other).asBytes <+: c.toDialer.written := by
      have := h.inbound
      rwa [hrunning] at this
    refine ⟨h.dialer, ?_, h.unread, h.routed, h.unanswered, h.agreed⟩
    rw [hrunning]
    exact hwritten.trans (List.prefix_append _ _)

theorem Sound.inboundFails (h : c.Sound infoHash peerId other used) :
    { c with inbound := c.inbound.fail }.Sound infoHash peerId other used := by
  have hinbound := h.inbound
  have hrouted := h.routed
  have hagreed := h.agreed
  cases hc : c.inbound with
  | reading =>
    rw [hc] at hinbound
    have hnone := h.not_dialed (by rw [hc]; rfl)
    refine ⟨h.dialer, ⟨?_, ?_⟩, nofun, nofun, h.unanswered, fun s hs => absurd hs (hnone s)⟩
    · rw [show c.toDialer.written = [] from hinbound]
      exact List.nil_prefix
    · intro he
      have hlen := length_handshake infoHash other
      rw [← he, show c.toDialer.written = [] from hinbound] at hlen
      cases hlen
  | replying registration supportsExt left =>
    rw [hc] at hinbound
    have hnone := h.not_dialed (by rw [hc]; rfl)
    refine ⟨h.dialer, ⟨⟨left, hinbound.1⟩, fun he => ?_⟩, nofun, nofun, h.unanswered,
      fun s hs => absurd hs (hnone s)⟩
    exact hinbound.2 (List.append_right_eq_self.mp (hinbound.1.trans he.symm))
  | running registration supportsExt =>
    rw [hc] at hinbound hrouted hagreed
    exact ⟨h.dialer, hinbound, nofun, hrouted, h.unanswered, hagreed⟩
  | failed error =>
    rw [hc] at hinbound
    exact ⟨h.dialer, hinbound, nofun, nofun, h.unanswered, fun s hs => absurd hs
      (h.not_dialed (by rw [hc]; rfl) s)⟩
  | ended registration supportsExt =>
    rw [hc] at hinbound hrouted hagreed
    exact ⟨h.dialer, hinbound, nofun, hrouted, h.unanswered, hagreed⟩

theorem Sound.answered (h : c.Sound infoHash peerId other used) (hfresh : c.dial.result = none)
    {incoming : List UInt8} {rest : Pipe UInt8}
    (hread : c.toDialer.readExact Handshake.HANDSHAKE_LEN = some (incoming, rest)) :
    incoming = (Handshake.new infoHash other).asBytes ∧
      ∃ registration supportsExt, c.inbound.session = some (registration, supportsExt) := by
  have hlen := length_handshake infoHash other
  have htaken := h.unanswered hfresh
  have hinbound := h.inbound
  cases hc : c.inbound with
  | reading =>
    rw [hc] at hinbound
    have hle := (Pipe.readExact_eq_some.mp hread).1
    rw [htaken, show c.toDialer.written = [] from hinbound] at hle
    cases hle
  | replying registration supportsExt left =>
    rw [hc] at hinbound
    have hall := (Pipe.readExact_within hread htaken ⟨left, hinbound.1⟩ hlen).2
    exact absurd (List.append_right_eq_self.mp (hinbound.1.trans hall.symm)) hinbound.2
  | running registration supportsExt =>
    rw [hc] at hinbound
    exact ⟨Pipe.readExact_prefix hread htaken hinbound hlen, registration, supportsExt, rfl⟩
  | failed error =>
    rw [hc] at hinbound
    exact absurd (Pipe.readExact_within hread htaken hinbound.1 hlen).2 hinbound.2
  | ended registration supportsExt =>
    rw [hc] at hinbound
    exact ⟨Pipe.readExact_prefix hread htaken hinbound hlen, registration, supportsExt, rfl⟩

theorem Sound.dialReads (h : c.Sound infoHash peerId other used) :
    (c.dialReads infoHash peerId).Sound infoHash peerId other used := by
  unfold Connection.dialReads
  split
  case h_2 => exact h
  case h_1 incoming rest hreading hread =>
    have hfresh : c.dial.result = none := by rw [hreading]; rfl
    obtain ⟨rfl, registration, supportsExt, hsession⟩ := h.answered hfresh hread
    have hwritten : c.toInbound.written = (Handshake.new infoHash peerId).asBytes := by
      have := h.dialer
      rwa [hreading] at this
    have hrouted : c.inbound.routed = some (registration, supportsExt) := by
      cases hc : c.inbound <;> rw [hc] at hsession <;> first | exact hsession | cases hsession
    obtain ⟨rfl, hne, -⟩ := h.routed registration supportsExt hrouted
    have hdial : Dial.receive infoHash peerId (Handshake.new infoHash other).asBytes =
        .dialed true := by
      have hinfo : (Handshake.new infoHash other).infoHash = infoHash := rfl
      have hpeer : (Handshake.new infoHash other).peerId ≠ peerId := Ne.symm hne
      have hcheck : checkRemote (Handshake.new infoHash other) infoHash peerId = .ok true := by
        rw [checkRemote, if_neg (not_not.mpr hinfo), if_neg hpeer,
          Handshake.supportsExtensionProtocol_new]
      rw [Dial.receive, Handshake.fromBytes_asBytes]
      dsimp only
      rw [hcheck]
    rw [hdial]
    refine ⟨⟨?_, fun _ => hwritten⟩, ?_, h.unread, h.routed, nofun, fun supportsExt he => ?_⟩
    · rw [hwritten]
    · rw [Pipe.written_readExact hread]
      exact h.inbound
    · cases he
      refine ⟨rfl, ?_, registration, hsession⟩
      rw [(Pipe.taken_readExact hread).1, h.unanswered hfresh, Nat.zero_add]

theorem Sound.sends (h : c.Sound infoHash peerId other used) {supportsExt : Bool}
    (hdial : c.dial = .dialed supportsExt) (bytes : List UInt8) :
    { c with toInbound := c.toInbound.write bytes }.Sound infoHash peerId other true := by
  have hdialer := h.dialer
  rw [hdial] at hdialer
  refine ⟨?_, h.inbound, h.unread, h.routed, h.unanswered, h.agreed⟩
  rw [hdial]
  exact ⟨hdialer.1.trans (List.prefix_append _ _), nofun⟩

def Keeps (c c' : Connection R) : Prop :=
  ∀ result, c.dial.result = some result → c'.dial.result = some result

theorem keeps_connected : c.Keeps (c.connected infoHash peerId) := by
  intro result h
  unfold Connection.connected
  split
  case h_1 hdial => rw [hdial] at h; cases h
  case h_2 => exact h

theorem keeps_dialWrites (n : Nat) : c.Keeps (c.dialWrites n) := by
  intro result h
  unfold Connection.dialWrites
  split
  case h_1 hdial => rw [hdial] at h; cases h
  case h_2 => exact h

theorem keeps_dialReads : c.Keeps (c.dialReads infoHash peerId) := by
  intro result h
  unfold Connection.dialReads
  split
  case h_1 hdial _ => rw [hdial] at h; cases h
  case h_2 => exact h

theorem keeps_dialFails : c.Keeps { c with dial := c.dial.fail } := by
  intro result h
  cases hdial : c.dial <;> rw [hdial] at h <;> first | exact h | cases h

theorem dial_inboundReads (engine : Engine R) (c : Connection R) :
    (c.inboundReads engine).dial = c.dial := by
  unfold Connection.inboundReads
  split <;> rfl

theorem dial_inboundWrites (n : Nat) (c : Connection R) : (c.inboundWrites n).dial = c.dial := by
  unfold Connection.inboundWrites
  split <;> rfl

theorem dial_inboundSends (bytes : List UInt8) (c : Connection R) :
    (c.inboundSends bytes).dial = c.dial := by
  unfold Connection.inboundSends
  split <;> rfl

end Connection

namespace Probe

inductive Took : List (Transport × Except DialError Bool) → ProbeState → Prop
  | nothing : Took [] (.waiting none)
  | once (via : Transport) (error : DialError) : Took [(via, .error error)] (.waiting (some error))
  | twice (via other : Transport) (first last : DialError) :
    Took [(via, .error first), (other, .error last)] (.failed first last)
  | run {before : List (Transport × Except DialError Bool)} (via : Transport) (supportsExt : Bool) :
    Took (before ++ [(via, .ok supportsExt)]) (.running via supportsExt)
  | ran {before : List (Transport × Except DialError Bool)} (via : Transport) (supportsExt : Bool) :
    Took (before ++ [(via, .ok supportsExt)]) (.finished via supportsExt)

def chosen (s : Probe R) : Option (Transport × Bool) :=
  match s.state with
  | .running via supportsExt | .finished via supportsExt => some (via, supportsExt)
  | _ => none

def uses (s : Probe R) (via : Transport) : Bool := s.chosen.any fun c => decide (c.1 = via)

/-- Every dialer that has come to its end has sent its result, once. -/
structure Delivered (s : Probe R) (taken : List (Transport × Except DialError Bool)) : Prop where
  took : Took taken s.state
  once : ((taken ++ s.results).map Prod.fst).Nodup
  results : ∀ via result,
    (via, result) ∈ taken ++ s.results ↔ (s.connection via).dial.result = some result

structure Sound (s : Probe R) : Prop where
  connections : ∀ via,
    (s.connection via).Sound s.infoHash s.peerId s.engine.peerId (s.uses via)
  delivered : ∃ taken, s.Delivered taken

variable {s : Probe R} {via : Transport}

theorem sound_start (infoHash peerId : Digest) (engine : Engine R) :
    (start infoHash peerId engine).Sound :=
  ⟨fun _ => Connection.sound_new, [], .nothing, List.nodup_nil, fun _ _ =>
    ⟨fun hm => absurd hm List.not_mem_nil, nofun⟩⟩

theorem Sound.update (h : s.Sound) {c : Connection R} (hkeeps : (s.connection via).Keeps c)
    (hc : c.Sound s.infoHash s.peerId s.engine.peerId (s.uses via)) : (s.update via c).Sound := by
  obtain ⟨hconnections, taken, htook, honce, hresults⟩ := h
  refine ⟨fun v => ?_, taken, htook, ?_, fun v result => ?_⟩
  · by_cases hv : v = via
    · subst hv
      simp only [Probe.update, if_true]
      exact hc
    · simp only [Probe.update, hv, if_false]
      exact hconnections v
  · simp only [Probe.update]
    split
    case h_1 result hnone hsome =>
      rw [← List.append_assoc, List.map_append, List.map_singleton, List.nodup_append]
      refine ⟨honce, by simp, fun v hv w hw => ?_⟩
      rw [List.mem_singleton] at hw
      rintro rfl
      obtain ⟨⟨v', result'⟩, hmem, rfl⟩ := List.mem_map.mp hv
      obtain rfl : v' = via := hw
      have hold := (hresults _ result').mp hmem
      cases hnone.symm.trans hold
    case h_2 => exact honce
  · by_cases hv : v = via
    · subst hv
      simp only [Probe.update, if_true]
      split
      case h_1 now hnone hsome =>
        rw [← List.append_assoc, List.mem_append, List.mem_singleton, hresults, hnone, hsome]
        simp [eq_comm]
      case h_2 hother =>
        rw [hresults]
        refine ⟨hkeeps result, fun hnow => ?_⟩
        cases hold : (s.connection v).dial.result with
        | none => exact absurd hnow (hother result hold)
        | some old => rw [← hnow, hkeeps old hold]
    · simp only [Probe.update, hv, if_false]
      split
      case h_1 =>
        rw [← List.append_assoc, List.mem_append, List.mem_singleton, hresults]
        simp [hv]
      case h_2 => exact hresults v result

theorem dial_of_result {c : Connection R} {supportsExt : Bool}
    (h : c.dial.result = some (.ok supportsExt)) : c.dial = .dialed supportsExt := by
  cases hdial : c.dial <;> rw [hdial] at h <;> cases h
  rfl

theorem Sound.dialed (h : s.Sound) {supportsExt : Bool} (hchosen : s.chosen = some (via, supportsExt)) :
    (s.connection via).dial = .dialed supportsExt := by
  obtain ⟨-, taken, htook, -, hresults⟩ := h
  unfold chosen at hchosen
  have hmem : (via, .ok supportsExt) ∈ taken := by
    generalize s.state = state at htook hchosen
    cases htook with
    | run | ran =>
      cases hchosen
      exact List.mem_append_right _ (List.mem_singleton_self _)
    | _ => cases hchosen
  exact dial_of_result ((hresults via _).mp (List.mem_append_left _ hmem))

theorem Sound.recv (h : s.Sound) : (s.step .recv).Sound := by
  obtain ⟨hconnections, taken, htook, honce, hresults⟩ := h
  -- the first result joins those that have been taken, whatever follows from it
  have hmove {head : Transport × Except DialError Bool} {rest : _} {first : Option DialError}
      {state : ProbeState} (hwaiting : s.state = .waiting first) (hhead : s.results = head :: rest)
      (hstate : Took (taken ++ [head]) state) :
      Sound { s with state := state, results := rest } := by
    rw [hhead] at honce hresults
    refine ⟨fun via => (hconnections via).mono fun _ => ?_, taken ++ [head], hstate, ?_,
      fun via result => ?_⟩
    · rw [uses, chosen, hwaiting]
      rfl
    · rwa [List.append_assoc, List.singleton_append]
    · rw [List.append_assoc, List.singleton_append]
      exact hresults via result
  simp only [step]
  split
  case h_1 hwaiting hhead => exact hmove hwaiting hhead (.run _ _)
  case h_2 hwaiting hhead =>
    rw [hwaiting] at htook
    cases htook
    exact hmove hwaiting hhead (.once _ _)
  case h_3 hwaiting hhead =>
    rw [hwaiting] at htook
    cases htook
    exact hmove hwaiting hhead (.twice _ _ _ _)
  case h_4 => exact ⟨hconnections, taken, htook, honce, hresults⟩

theorem Sound.sends (h : s.Sound) (bytes : List UInt8) : (s.step (.sends bytes)).Sound := by
  simp only [step]
  split
  case h_2 => exact h
  case h_1 via supportsExt hrunning =>
    have hdial := @Sound.dialed _ s via h supportsExt (by rw [chosen, hrunning])
    obtain ⟨hconnections, taken, htook, honce, hresults⟩ := h
    refine ⟨fun v => ?_, taken, htook, honce, fun v result => ?_⟩
    · by_cases hv : v = via
      · subst hv
        simp only [if_true]
        refine ((hconnections v).sends hdial bytes).mono fun hno => ?_
        simp [uses, chosen, hrunning] at hno
      · simp only [hv, if_false]
        exact hconnections v
    · rw [hresults]
      dsimp only
      split <;> rfl

theorem Sound.finish (h : s.Sound) : (s.step .finish).Sound := by
  simp only [step]
  split
  case h_2 => exact h
  case h_1 via supportsExt hrunning =>
    obtain ⟨hconnections, taken, htook, honce, hresults⟩ := h
    rw [hrunning] at htook
    cases htook
    refine ⟨fun v => (hconnections v).mono fun hno => ?_, _, .ran via supportsExt, honce, hresults⟩
    rw [uses, chosen, hrunning]
    exact hno

theorem sound_step (h : s.Sound) (event : ProbeEvent R) : (s.step event).Sound := by
  have hc (via : Transport) := h.connections via
  cases event with
  | register | unregister =>
    obtain ⟨hconnections, taken, htook, honce, hresults⟩ := h
    exact ⟨hconnections, taken, htook, honce, hresults⟩
  | connected via => exact h.update Connection.keeps_connected (hc via).connected
  | dialWrites via n => exact h.update (Connection.keeps_dialWrites n) ((hc via).dialWrites n)
  | dialReads via => exact h.update Connection.keeps_dialReads (hc via).dialReads
  | dialFails via => exact h.update Connection.keeps_dialFails (hc via).dialFails
  | inboundReads via =>
    refine h.update (fun result hr => ?_) (hc via).inboundReads
    rwa [Connection.dial_inboundReads]
  | inboundWrites via n =>
    refine h.update (fun result hr => ?_) ((hc via).inboundWrites n)
    rwa [Connection.dial_inboundWrites]
  | inboundSends via bytes =>
    refine h.update (fun result hr => ?_) ((hc via).inboundSends bytes)
    rwa [Connection.dial_inboundSends]
  | inboundFails via => exact h.update (fun _ hr => hr) (hc via).inboundFails
  | recv => exact h.recv
  | sends bytes => exact h.sends bytes
  | finish => exact h.finish

theorem engine_step (s : Probe R) (event : ProbeEvent R) :
    (s.step event).infoHash = s.infoHash ∧ (s.step event).peerId = s.peerId ∧
      (s.step event).engine.peerId = s.engine.peerId := by
  cases event with
  | recv | sends | finish =>
    simp only [step]
    split <;> exact ⟨rfl, rfl, rfl⟩
  | _ => exact ⟨rfl, rfl, rfl⟩

theorem routed_connection {c : Connection R} {engine : Engine R} {infoHash peerId : Digest}
    {used : Bool} (h : c.Sound infoHash peerId engine.peerId used) {result : R × Bool}
    (hrouted : (c.inboundReads engine).inbound.routed = some result) :
    c.inbound.routed = some result ∨ engine.lookup infoHash = some result.1 := by
  unfold Connection.inboundReads at hrouted
  split at hrouted
  case h_2 => exact .inl hrouted
  case h_1 incoming rest hreading hread =>
    obtain ⟨remote, hremote, -, hlookup, -⟩ := Inbound.receive_of_routed hrouted
    rw [h.incoming hreading hread, Handshake.fromBytes_asBytes, Except.ok.injEq] at hremote
    subst hremote
    exact .inr hlookup

theorem routed_step (h : s.Sound) (event : ProbeEvent R) {result : R × Bool}
    (hrouted : ((s.step event).connection via).inbound.routed = some result) :
    (s.connection via).inbound.routed = some result ∨
      s.engine.lookup s.infoHash = some result.1 := by
  have hupdate (v : Transport) {c : Connection R} (hr : ((s.update v c).connection via).inbound.routed
      = some result) (hc : c.inbound.routed = some result →
        (s.connection v).inbound.routed = some result ∨
          s.engine.lookup s.infoHash = some result.1) :
      (s.connection via).inbound.routed = some result ∨
        s.engine.lookup s.infoHash = some result.1 := by
    by_cases hv : via = v
    · subst hv
      simp only [Probe.update, if_true] at hr
      exact hc hr
    · simp only [Probe.update, hv, if_false] at hr
      exact .inl hr
  cases event with
  | register | unregister => exact .inl hrouted
  | connected v =>
    refine hupdate v hrouted fun hr => .inl ?_
    unfold Connection.connected at hr
    split at hr <;> exact hr
  | dialWrites v n =>
    refine hupdate v hrouted fun hr => .inl ?_
    unfold Connection.dialWrites at hr
    split at hr <;> exact hr
  | dialReads v =>
    refine hupdate v hrouted fun hr => .inl ?_
    unfold Connection.dialReads at hr
    split at hr <;> exact hr
  | dialFails v => exact hupdate v hrouted .inl
  | inboundReads v => exact hupdate v hrouted (routed_connection (h.connections v))
  | inboundWrites v n =>
    refine hupdate v hrouted fun hr => .inl ?_
    unfold Connection.inboundWrites at hr
    split at hr
    · exact (Inbound.routed_wrote n _).symm.trans hr
    · exact hr
  | inboundSends v bytes =>
    refine hupdate v hrouted fun hr => .inl ?_
    unfold Connection.inboundSends at hr
    split at hr <;> exact hr
  | inboundFails v => exact hupdate v hrouted fun hr => .inl (Inbound.routed_of_fail hr)
  | recv | finish =>
    simp only [step] at hrouted
    split at hrouted <;> exact .inl hrouted
  | sends bytes =>
    simp only [step] at hrouted
    split at hrouted
    · dsimp only at hrouted
      split at hrouted <;> exact .inl hrouted
    · exact .inl hrouted

theorem sound_run (infoHash peerId : Digest) (engine : Engine R) (events : List (ProbeEvent R)) :
    let s := exec step (start infoHash peerId engine) events
    s.Sound ∧ (s.infoHash = infoHash ∧ s.peerId = peerId ∧ s.engine.peerId = engine.peerId) ∧
      ∀ via registration supportsExt,
        (s.connection via).inbound.routed = some (registration, supportsExt) →
          ∃ k, (exec step (start infoHash peerId engine) (events.take k)).engine.lookup infoHash =
            some registration := by
  induction events using List.reverseRecOn with
  | nil => exact ⟨sound_start infoHash peerId engine, ⟨rfl, rfl, rfl⟩, nofun⟩
  | append_singleton events event ih =>
    obtain ⟨hsound, ⟨hinfo, hpeer, hother⟩, hrouted⟩ := ih
    rw [exec_append, exec_cons, exec_nil]
    obtain ⟨hinfo', hpeer', hother'⟩ :=
      engine_step (exec step (start infoHash peerId engine) events) event
    refine ⟨sound_step hsound event, ⟨hinfo'.trans hinfo, hpeer'.trans hpeer,
      hother'.trans hother⟩, fun via registration supportsExt hr => ?_⟩
    rcases routed_step hsound event hr with hbefore | hnow
    · obtain ⟨k, hk⟩ := hrouted via registration supportsExt hbefore
      refine ⟨min k events.length, ?_⟩
      rw [List.take_append_of_le_length (Nat.min_le_right _ _), ← List.take_eq_take_min]
      exact hk
    · rw [hinfo] at hnow
      exact ⟨events.length, by rw [List.take_left]; exact hnow⟩

theorem Sound.failed (h : s.Sound) {first last : DialError} (hfailed : s.state = .failed first last) :
    ∃ via other, via ≠ other ∧ (s.connection via).dial = .failed first ∧
      (s.connection other).dial = .failed last := by
  obtain ⟨-, taken, htook, honce, hresults⟩ := h
  have hdial (via : Transport) (error : DialError)
      (hr : (s.connection via).dial.result = some (.error error)) :
      (s.connection via).dial = .failed error := by
    cases hd : (s.connection via).dial <;> rw [hd] at hr <;> cases hr
    rfl
  rw [hfailed] at htook
  cases htook with
  | twice via other =>
    refine ⟨via, other, fun heq => ?_, hdial via first ((hresults _ _).mp ?_),
      hdial other last ((hresults _ _).mp ?_)⟩
    · simp [heq] at honce
    · simp
    · simp

theorem Sound.waits (h : s.Sound) {firstErr : Option DialError}
    (hwaiting : s.state = .waiting firstErr) :
    s.results ≠ [] ∨ ∃ via, (s.connection via).dial.result = none := by
  obtain ⟨-, taken, htook, -, hresults⟩ := h
  by_contra hno
  rw [not_or, not_not] at hno
  obtain ⟨hnone, hall⟩ := hno
  rw [hnone, List.append_nil] at hresults
  -- both dialers have come to their end, and their results have been taken
  have hmem (via : Transport) : ∃ result, (via, result) ∈ taken := by
    cases hr : (s.connection via).dial.result with
    | none => exact absurd ⟨via, hr⟩ hall
    | some result => exact ⟨result, (hresults via result).mpr hr⟩
  obtain ⟨r, hr⟩ := hmem .tcp
  obtain ⟨r', hr'⟩ := hmem .quic
  rw [hwaiting] at htook
  cases htook with
  | nothing => cases hr
  | once via error =>
    rw [List.mem_singleton] at hr hr'
    cases hr
    cases hr'

/-- However two engines and their connections take their steps: whoever comes to run a session is
connected to the other engine, and never to itself; the other side runs it for a torrent that was
registered under the info hash, both have found the extension bit set, and behind the handshakes
there is nothing but what the other session has sent.  No more than one of the two connections is
used; the probe fails only when both dialers have, and it always has something to wait for. -/
theorem probe_agrees (infoHash peerId : Digest) (engine : Engine R) (events : List (ProbeEvent R)) :
    let s := exec step (start infoHash peerId engine) events
    let hello := (Handshake.new infoHash peerId).asBytes
    let answer := (Handshake.new infoHash engine.peerId).asBytes
    let wasRegistered (registration : R) := ∃ k,
      (exec step (start infoHash peerId engine) (events.take k)).engine.lookup infoHash =
        some registration
    (∀ via supportsExt, s.chosen = some (via, supportsExt) →
      supportsExt = true ∧ peerId ≠ engine.peerId ∧ answer <+: (s.connection via).toDialer.written ∧
      (s.connection via).toDialer.taken = answer.length ∧
      ∃ registration, (s.connection via).inbound.session = some (registration, true) ∧
        wasRegistered registration) ∧
    (∀ via registration supportsExt,
      (s.connection via).inbound.session = some (registration, supportsExt) →
        supportsExt = true ∧ peerId ≠ engine.peerId ∧ wasRegistered registration ∧
        (s.connection via).toInbound.taken = hello.length) ∧
    (∀ via, (s.connection via).toInbound.written <+: hello ∨
      s.uses via ∧ hello <+: (s.connection via).toInbound.written) ∧
    (∀ first last, s.state = .failed first last → ∃ via other, via ≠ other ∧
      (s.connection via).dial = .failed first ∧ (s.connection other).dial = .failed last) ∧
    ∀ firstErr, s.state = .waiting firstErr →
      s.results ≠ [] ∨ ∃ via, (s.connection via).dial.result = none := by
  intro s hello answer wasRegistered
  obtain ⟨hsound, ⟨hinfo, hpeer, hother⟩, hregistered⟩ := sound_run infoHash peerId engine events
  have hconnection (via : Transport) :
      (s.connection via).Sound infoHash peerId engine.peerId (s.uses via) := by
    have := hsound.connections via
    rwa [hinfo, hpeer, hother] at this
  have hsession (via : Transport) (registration : R) (supportsExt : Bool)
      (h : (s.connection via).inbound.session = some (registration, supportsExt)) :
      (s.connection via).inbound.routed = some (registration, supportsExt) ∧
        answer <+: (s.connection via).toDialer.written := by
    have hinbound := (hconnection via).inbound
    cases hc : (s.connection via).inbound <;> rw [hc] at h hinbound <;>
      first | exact ⟨h, hinbound⟩ | cases h
  refine ⟨fun via supportsExt hchosen => ?_, fun via registration supportsExt h => ?_, fun via => ?_,
    fun first last => hsound.failed, fun firstErr => hsound.waits⟩
  · obtain ⟨hsupports, htaken, registration, h⟩ :=
      (hconnection via).agreed supportsExt (hsound.dialed hchosen)
    obtain ⟨hrouted, hwritten⟩ := hsession via registration true h
    obtain ⟨-, hne, -⟩ := (hconnection via).routed registration true hrouted
    exact ⟨hsupports, hne, hwritten, htaken.trans (Handshake.length_asBytes _).symm, registration, h,
      hregistered via registration true hrouted⟩
  · have hrouted := (hsession via registration supportsExt h).1
    obtain ⟨hsupports, hne, htaken⟩ := (hconnection via).routed registration supportsExt hrouted
    exact ⟨hsupports, hne, hregistered via registration supportsExt hrouted,
      htaken.trans (Handshake.length_asBytes _).symm⟩
  · have hdialer := (hconnection via).dialer
    cases hd : (s.connection via).dial with
    | connecting =>
      rw [hd] at hdialer
      exact .inl ((show (s.connection via).toInbound.written = [] from hdialer) ▸ List.nil_prefix)
    | writing left =>
      rw [hd] at hdialer
      exact .inl ⟨left, hdialer⟩
    | reading =>
      rw [hd] at hdialer
      exact .inl ⟨[], by rw [List.append_nil]; exact hdialer⟩
    | failed =>
      rw [hd] at hdialer
      exact .inl hdialer
    | dialed =>
      rw [hd] at hdialer
      cases hu : s.uses via with
      | true => exact .inr ⟨rfl, hdialer.1⟩
      | false => exact .inl ⟨[], by rw [List.append_nil]; exact hdialer.2 hu⟩

end Probe
end Tortor.Net
