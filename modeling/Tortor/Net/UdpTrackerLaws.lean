import Mathlib.Tactic.SplitIfs
import Tortor.Net.UdpTracker

/-! Announcing over UDP: what gets through is understood as it was meant, and the peers that a call
returns were listed for it. -/

namespace Tortor.Net

structure AnnounceParams.Fits (params : AnnounceParams) : Prop where
  peerId : params.peerId.length = 20
  port : params.port < 2 ^ 16
  uploaded : params.uploaded < 2 ^ 64
  downloaded : params.downloaded < 2 ^ 64
  left : params.left < 2 ^ 64

namespace Tracker

open Tortor.Core (Digest SocketAddr)
open Tortor.Lib

theorem beAt_append_left {xs : List UInt8} {width : Nat} (h : xs.length = width)
    (ys : List UInt8) : beAt (xs ++ ys) 0 width = beNat xs := by
  rw [beAt, slice_append_left h]

theorem beAt_append_right {xs : List UInt8} {start : Nat} (h : xs.length ≤ start)
    (ys : List UInt8) (width : Nat) :
    beAt (xs ++ ys) start width = beAt ys (start - xs.length) width := by
  rw [beAt, slice_append_right h, beAt]

theorem beAt_self {xs : List UInt8} {width : Nat} (h : xs.length = width) :
    beAt xs 0 width = beNat xs := by
  rw [beAt, slice_self h]

theorem beNat_of_lt {n value : Nat} (h : value < 2 ^ (8 * n)) :
    beNat (toBeBytes n value) = value := by
  rw [beNat_toBeBytes, show 256 ^ n = 2 ^ (8 * n) from (pow_mul 2 8 n).symm, Nat.mod_eq_of_lt h]

theorem eventNum_lt (event : Option String) : eventNum event < 4 := by
  unfold eventNum
  split <;> decide

theorem length_connectReq (tx : BitVec 32) : (connectReq tx).length = 16 := by
  simp only [connectReq, List.length_append, length_toBeBytes]

theorem parse_connectReq (tx : BitVec 32) :
    UdpRequest.parse (connectReq tx) = some (.connect tx) := by
  have hprotocol : beAt (connectReq tx) 0 8 = PROTOCOL_ID := by
    rw [connectReq, beAt_append_left (length_toBeBytes ..), beNat_of_lt (by decide)]
  have haction : beAt (connectReq tx) 8 4 = 0 := by
    rw [connectReq, beAt_append_right (length_toBeBytes ..).le, length_toBeBytes,
      beAt_append_left (length_toBeBytes ..), beNat_of_lt (by decide)]
  have htx : beAt (connectReq tx) 12 4 = tx.toNat := by
    simp [connectReq, beAt_append_right, beAt_self, length_toBeBytes, beNat_of_lt (n := 4) tx.isLt]
  rw [UdpRequest.parse, length_connectReq, if_neg (fun h => absurd h.1 (by decide)), hprotocol,
    haction, htx, if_pos ⟨le_rfl, rfl, rfl⟩, BitVec.ofNat_toNat, BitVec.setWidth_eq]

def announced (params : AnnounceParams) (key : BitVec 32) : UdpAnnounce where
  infoHash := params.infoHash.bytes
  peerId := params.peerId
  downloaded := params.downloaded
  left := params.left
  uploaded := params.uploaded
  event := eventNum params.event
  ip := 0
  key := key.toNat
  numWant := 2 ^ 32 - 1
  port := params.port

theorem length_announceReq {params : AnnounceParams} (hfits : params.Fits)
    (connectionId : BitVec 64) (tx key : BitVec 32) :
    (announceReq params connectionId tx key).length = 98 := by
  simp only [announceReq, List.length_append, length_toBeBytes, params.infoHash.size, hfits.peerId]

theorem parse_announceReq {params : AnnounceParams} (hfits : params.Fits)
    (connectionId : BitVec 64) (tx key : BitVec 32) :
    UdpRequest.parse (announceReq params connectionId tx key) =
      some (.announce connectionId tx (announced params key)) := by
  have hhash := params.infoHash.size
  have haction : beAt (announceReq params connectionId tx key) 8 4 = 1 := by
    simp [announceReq, beAt_append_left, beAt_append_right, length_toBeBytes, beNat_toBeBytes]
  rw [UdpRequest.parse, length_announceReq hfits, haction, if_pos ⟨le_rfl, rfl⟩]
  have hevent : eventNum params.event < 2 ^ 32 := (eventNum_lt params.event).trans (by decide)
  simp [announceReq, announced, beAt_append_left, beAt_append_right, beAt_self, slice_append_left,
    slice_append_right, length_toBeBytes, hfits.peerId, hhash,
    beNat_of_lt (n := 8) hfits.left, beNat_of_lt (n := 2) hfits.port,
    beNat_of_lt (n := 8) hfits.uploaded, beNat_of_lt (n := 8) hfits.downloaded,
    beNat_of_lt (n := 4) hevent, beNat_of_lt (n := 4) key.isLt, beNat_of_lt (n := 4) tx.isLt,
    beNat_of_lt (n := 8) connectionId.isLt, beNat_of_lt (n := 4)]

theorem beAt_take {buf : List UInt8} {start width n : Nat} (h : start + width ≤ n) :
    beAt (buf.take n) start width = beAt buf start width := by
  rw [beAt, slice_take h, beAt]

namespace UdpResponse

variable {isIpv4 : Bool}

def action : UdpResponse isIpv4 → Nat
  | .connect .. => 0
  | .announce .. => 1
  | .error .. => 3

def transactionId : UdpResponse isIpv4 → BitVec 32
  | .connect tx _ => tx
  | .announce tx .. => tx
  | .error tx _ => tx

@[irreducible] def received (response : UdpResponse isIpv4) : List UInt8 := response.encode.take UDP_BUFFER

theorem encode_eq (response : UdpResponse isIpv4) : ∃ body, response.encode =
    toBeBytes 4 response.action ++ (toBeBytes 4 response.transactionId.toNat ++ body) := by
  cases response <;> exact ⟨_, rfl⟩

theorem beAt_action (response : UdpResponse isIpv4) :
    beAt response.received 0 4 = response.action := by
  obtain ⟨body, hbody⟩ := response.encode_eq
  have haction : response.action < 2 ^ (8 * 4) := by
    cases response <;> rw [action] <;> decide
  rw [received, beAt_take (by decide), hbody, beAt_append_left (length_toBeBytes ..),
    beNat_of_lt haction]

theorem beAt_transactionId (response : UdpResponse isIpv4) :
    beAt response.received 4 4 = response.transactionId.toNat := by
  obtain ⟨body, hbody⟩ := response.encode_eq
  rw [received, beAt_take (by decide), hbody, beAt_append_right (length_toBeBytes ..).le,
    length_toBeBytes, beAt_append_left (length_toBeBytes ..),
    beNat_of_lt (n := 4) response.transactionId.isLt]

theorem length_received (response : UdpResponse isIpv4) :
    response.received.length = min UDP_BUFFER response.encode.length := by
  rw [received, List.length_take]

theorem length_encode_announce (tx interval leechers seeders : BitVec 32)
    (peers : UdpPeers isIpv4) : 20 ≤ (announce tx interval leechers seeders peers).encode.length := by
  simp only [encode, List.length_append, length_toBeBytes]
  omega

theorem length_encode_error (tx : BitVec 32) (text : List UInt8) :
    (@UdpResponse.error isIpv4 tx text).encode.length = 8 + text.length := by
  simp only [encode, List.length_append, length_toBeBytes]
  omega

theorem drop_received_error (tx : BitVec 32) (message : List UInt8) :
    (@UdpResponse.error isIpv4 tx message).received.drop 8 = message.take 8184 := by
  have hfront : (toBeBytes 4 3 ++ toBeBytes 4 tx.toNat).length = 8 := by
    rw [List.length_append, length_toBeBytes, length_toBeBytes]
  rw [received, encode, ← List.append_assoc, List.drop_take, List.drop_left' hfront]
  rfl

end UdpResponse

section Reads

variable {isIpv4 : Bool} (tx tx' interval leechers seeders : BitVec 32) (connectionId : BitVec 64)
variable (text : List UInt8) (peers : UdpPeers isIpv4)

open UdpResponse

theorem readConnect_connect :
    readConnect tx (@UdpResponse.connect isIpv4 tx' connectionId).received =
      if tx' = tx then .ok connectionId else .error .transactionId := by
  have hlength : (@UdpResponse.connect isIpv4 tx' connectionId).received.length = 16 := by
    simp only [length_received, encode, List.length_append, length_toBeBytes, UDP_BUFFER]
    decide
  have hbody : beAt (@UdpResponse.connect isIpv4 tx' connectionId).received 8 8 =
      connectionId.toNat := by
    rw [received, beAt_take (by decide), encode]
    simp [beAt_append_right, beAt_self, length_toBeBytes, beNat_of_lt (n := 8) connectionId.isLt]
  simp [readConnect, beAt_action, beAt_transactionId, hlength, hbody, action, transactionId,
    BitVec.toNat_inj]

theorem readConnect_announce :
    readConnect tx (announce tx' interval leechers seeders peers).received =
      .error (.connectAction 1) := by
  have hlength : 16 ≤ (announce tx' interval leechers seeders peers).received.length := by
    have := length_encode_announce tx' interval leechers seeders peers
    rw [length_received, UDP_BUFFER]
    omega
  simp [readConnect, beAt_action, Nat.not_lt.mpr hlength, action]

theorem readConnect_error :
    readConnect tx (@UdpResponse.error isIpv4 tx' text).received =
      if text.length < 8 then .error .connectLength
      else .error (.tracker (text.take 8184)) := by
  have hlength : (@UdpResponse.error isIpv4 tx' text).received.length < 16 ↔
      text.length < 8 := by
    rw [length_received, length_encode_error, UDP_BUFFER]
    omega
  simp [readConnect, beAt_action, hlength, action, drop_received_error]

theorem readAnnounce_connect :
    readAnnounce isIpv4 tx (@UdpResponse.connect isIpv4 tx' connectionId).received =
      .error .announceLength := by
  have hlength : (@UdpResponse.connect isIpv4 tx' connectionId).received.length < 20 := by
    simp only [length_received, encode, List.length_append, length_toBeBytes, UDP_BUFFER]
    decide
  simp [readAnnounce, hlength]

theorem readAnnounce_error :
    readAnnounce isIpv4 tx (@UdpResponse.error isIpv4 tx' text).received =
      if text.length < 12 then .error .announceLength
      else .error (.tracker (text.take 8184)) := by
  have hlength : (@UdpResponse.error isIpv4 tx' text).received.length < 20 ↔
      text.length < 12 := by
    rw [length_received, length_encode_error, UDP_BUFFER]
    omega
  simp [readAnnounce, beAt_action, hlength, action, drop_received_error]

def udpRoom (isIpv4 : Bool) : Nat := if isIpv4 then 1362 else 454

theorem drop_received_announce :
    (announce tx' interval leechers seeders peers).received.drop 20 =
      (peers.val.take (udpRoom isIpv4)).flatMap compactAddr := by
  have hfront : (toBeBytes 4 1 ++ toBeBytes 4 tx'.toNat ++ toBeBytes 4 interval.toNat ++
      toBeBytes 4 leechers.toNat ++ toBeBytes 4 seeders.toNat).length = 20 := by
    simp only [List.length_append, length_toBeBytes]
  have hwidth : ∀ addr ∈ peers.val, (compactAddr addr).length = compactWidth (!isIpv4) :=
    fun addr haddr => by rw [length_compactAddr, peers.property addr haddr]
  have hroom : UDP_BUFFER - 20 = compactWidth (!isIpv4) * udpRoom isIpv4 := by
    cases isIpv4 <;> rfl
  rw [received, encode, ← List.append_assoc, ← List.append_assoc, ← List.append_assoc,
    ← List.append_assoc, List.drop_take, List.drop_left' hfront, hroom, take_flatMap hwidth]

theorem decode_flatMap {isIpv4 : Bool} {peers : List SocketAddr}
    (h : ∀ addr ∈ peers, addr.isIpv6 = !isIpv4) :
    (if isIpv4 then decodeCompactPeers (peers.flatMap compactAddr)
      else decodeCompactPeers6 (peers.flatMap compactAddr)) = .ok (peers.map .mk) := by
  have hbytes := length_flatMap_const compactAddr peers
    fun addr haddr => by rw [length_compactAddr, h addr haddr]
  have hdecode := decodeFamily_flatMap h
  cases isIpv4 with
  | true =>
    have hv4 : decodeCompactIpv4 (peers.flatMap compactAddr) = peers := hdecode
    rw [if_pos rfl, decodeCompactPeers, hbytes, if_neg (by simp [compactWidth]), hv4]
  | false =>
    have hv6 : decodeCompactIpv6 (peers.flatMap compactAddr) = peers := hdecode
    rw [if_neg Bool.false_ne_true, decodeCompactPeers6, hbytes, if_neg (by simp [compactWidth]),
      hv6]

theorem readAnnounce_announce :
    readAnnounce isIpv4 tx (announce tx' interval leechers seeders peers).received =
      if tx' = tx then .ok ((peers.val.take (udpRoom isIpv4)).map .mk)
      else .error .announceTransactionId := by
  have hlength : 20 ≤ (announce tx' interval leechers seeders peers).received.length := by
    have := length_encode_announce tx' interval leechers seeders peers
    rw [length_received, UDP_BUFFER]
    omega
  have hpeers : ∀ addr ∈ peers.val.take (udpRoom isIpv4), addr.isIpv6 = !isIpv4 :=
    fun addr haddr => peers.property addr (List.mem_of_mem_take haddr)
  simp [readAnnounce, beAt_action, beAt_transactionId, Nat.not_lt.mpr hlength, action,
    transactionId, BitVec.toNat_inj, drop_received_announce, decode_flatMap hpeers, Except.mapError]

end Reads

namespace UdpCall

def asked (self : UdpCall) : UdpStage → UdpRequest
  | .connecting => .connect self.transactionId
  | .announcing connectionId =>
    .announce connectionId self.announceTxId (announced self.params self.key)

theorem parse_request {call : UdpCall} (hfits : call.params.Fits) (stage : UdpStage) :
    UdpRequest.parse (call.request stage) = some (call.asked stage) := by
  cases stage with
  | connecting => exact parse_connectReq _
  | announcing connectionId => exact parse_announceReq hfits ..

end UdpCall

def UdpRequest.Fitted {isIpv4 : Bool} : UdpRequest → UdpResponse isIpv4 → Prop
  | .connect tx, response => (∃ connectionId, response = .connect tx connectionId) ∨
      ∃ text, response = .error tx text
  | .announce _ tx _, response =>
    (∃ interval leechers seeders peers, response = .announce tx interval leechers seeders peers) ∨
      ∃ text, response = .error tx text

theorem UdpTracker.fitted_answer {σ : Type} {isIpv4 : Bool} (tracker : UdpTracker σ isIpv4)
    {state : σ} {request : UdpRequest} {response : UdpResponse isIpv4}
    (h : (tracker.answer state request).2 = some response) : request.Fitted response := by
  cases request with
  | connect tx =>
    obtain ⟨granted, -, rfl⟩ := Option.map_eq_some_iff.mp h
    cases granted with
    | ok connectionId => exact .inl ⟨connectionId, rfl⟩
    | error text => exact .inr ⟨text, rfl⟩
  | announce connectionId tx announce =>
    obtain ⟨granted, -, rfl⟩ := Option.map_eq_some_iff.mp h
    cases granted with
    | ok peers => exact .inl ⟨_, _, _, _, rfl⟩
    | error text => exact .inr ⟨text, rfl⟩

/-- The tracker refuses nothing. -/
def UdpTracker.Grants {σ : Type} {isIpv4 : Bool} (tracker : UdpTracker σ isIpv4) : Prop :=
  (∀ state, ∃ connectionId, (tracker.connect state).2 = some (.ok connectionId)) ∧
    ∀ state connectionId announce, ∃ reply,
      (tracker.announce state connectionId announce).2 = some (.ok reply)

namespace UdpExchange

variable {σ : Type} {call : UdpCall}

def Granted (call : UdpCall) (answered : List (UdpRequest × UdpResponse call.isIpv4)) :
    UdpStage → Prop
  | .connecting => True
  | .announcing connectionId =>
    (call.asked .connecting, .connect call.transactionId connectionId) ∈ answered

/-- The tracker has taken this announce, under a connection id that it gave out, and these are the
peers it answered, as far as the buffer has room for them. -/
def Served (call : UdpCall) (answered : List (UdpRequest × UdpResponse call.isIpv4))
    (peers : List PeerInfo) : Prop :=
  ∃ connectionId interval leechers seeders listed, Granted call answered (.announcing connectionId) ∧
    (call.asked (.announcing connectionId),
      .announce call.announceTxId interval leechers seeders listed) ∈ answered ∧
    peers = (listed.val.take (udpRoom call.isIpv4)).map .mk

def Refused (answered : List (UdpRequest × UdpResponse call.isIpv4)) (message : List UInt8) : Prop :=
  ∃ request tx text, (request, .error tx text) ∈ answered ∧ message = text.take 8184

def Told (answered : List (UdpRequest × UdpResponse call.isIpv4)) : UdpPhase → Prop
  | .sending stage _ | .waiting stage _ => Granted call answered stage
  | .done (.ok peers) => Served call answered peers
  | .done (.error (.tracker message)) => Refused answered message
  | .done (.error _) => True

def Counts (connects announces : Nat) (connectionId : BitVec 64) : UdpPhase → Prop
  | .sending .connecting attempt => attempt = connects + 1 ∧ attempt ≤ UDP_ATTEMPTS ∧ announces = 0
  | .waiting .connecting attempt => attempt = connects ∧ 0 < attempt ∧ announces = 0
  | .sending (.announcing id) attempt =>
    attempt = announces + 1 ∧ attempt ≤ UDP_ATTEMPTS ∧ id = connectionId
  | .waiting (.announcing id) attempt => attempt = announces ∧ 0 < attempt ∧ id = connectionId
  | .done (.error .timedOut) =>
    connects = UDP_ATTEMPTS ∧ announces = 0 ∨ announces = UDP_ATTEMPTS
  | .done _ => True

structure Sound (s : UdpExchange σ call.isIpv4) : Prop where
  counted : ∃ connects announces connectionId,
    s.sent = List.replicate connects (call.request .connecting) ++
      List.replicate announces (call.request (.announcing connectionId)) ∧
    connects ≤ UDP_ATTEMPTS ∧ announces ≤ UDP_ATTEMPTS ∧
    (0 < announces → Granted call s.answered (.announcing connectionId)) ∧
    Counts connects announces connectionId s.phase
  answered : ∀ entry ∈ s.answered, entry.1.Fitted entry.2 ∧
    ∃ stage, entry.1 = call.asked stage ∧ Granted call s.answered stage
  queue : ∀ datagram ∈ s.queue, ∃ entry ∈ s.answered, datagram = entry.2.encode
  told : Told s.answered s.phase

theorem sound_start (state : σ) : (start state : UdpExchange σ call.isIpv4).Sound where
  counted := ⟨0, 0, 0, rfl, by decide, by decide, fun h => absurd h (by decide), rfl, by decide, rfl⟩
  answered _ h := absurd h List.not_mem_nil
  queue _ h := absurd h List.not_mem_nil
  told := trivial

section Monotone

variable {answered later : List (UdpRequest × UdpResponse call.isIpv4)}

theorem granted_mono (h : answered ⊆ later) {stage : UdpStage} (hg : Granted call answered stage) :
    Granted call later stage := by
  cases stage with
  | connecting => trivial
  | announcing connectionId => exact h hg

theorem told_mono (h : answered ⊆ later) {phase : UdpPhase} (ht : Told answered phase) :
    Told later phase := by
  cases phase with
  | sending stage attempt => exact granted_mono h ht
  | waiting stage attempt => exact granted_mono h ht
  | done result =>
    cases result with
    | ok peers =>
      obtain ⟨id, i, l, s, listed, hgranted, hlisted, hpeers⟩ := ht
      exact ⟨id, i, l, s, listed, granted_mono h hgranted, h hlisted, hpeers⟩
    | error err =>
      cases err with
      | tracker message =>
        obtain ⟨request, tx, text, hentry, htext⟩ := ht
        exact ⟨request, tx, text, h hentry, htext⟩
      | _ => trivial

end Monotone

theorem mem_sent {s : UdpExchange σ call.isIpv4} (h : s.Sound) {datagram : List UInt8}
    (hmem : datagram ∈ s.sent) :
    ∃ stage, datagram = call.request stage ∧ Granted call s.answered stage := by
  obtain ⟨connects, announces, connectionId, hsent, -, -, hgranted, -⟩ := h.counted
  rw [hsent, List.mem_append, List.mem_replicate, List.mem_replicate] at hmem
  obtain ⟨-, rfl⟩ | ⟨hpos, rfl⟩ := hmem
  · exact ⟨.connecting, rfl, trivial⟩
  · exact ⟨.announcing connectionId, rfl, hgranted (Nat.pos_of_ne_zero hpos)⟩

theorem Sound.extend {s : UdpExchange σ call.isIpv4} (h : s.Sound) {stage : UdpStage}
    (hstage : Granted call s.answered stage) {response : Option (UdpResponse call.isIpv4)}
    (hfitted : ∀ r, response = some r → (call.asked stage).Fitted r) (state : σ) :
    Sound { s with
      tracker := state
      answered := s.answered ++ (response.map fun r => (call.asked stage, r)).toList } := by
  have hsub : s.answered ⊆ s.answered ++ (response.map fun r => (call.asked stage, r)).toList :=
    List.subset_append_left ..
  refine ⟨?_, fun entry hentry => ?_, fun datagram hmem => ?_, told_mono hsub h.told⟩
  · obtain ⟨connects, announces, connectionId, hsent, hc, ha, hgranted, hcounts⟩ := h.counted
    exact ⟨connects, announces, connectionId, hsent, hc, ha,
      fun hpos => granted_mono hsub (hgranted hpos), hcounts⟩
  · obtain hold | hnew := List.mem_append.mp hentry
    · obtain ⟨hfit, asked, hasked, hgranted⟩ := h.answered entry hold
      exact ⟨hfit, asked, hasked, granted_mono hsub hgranted⟩
    · obtain ⟨r, hr, rfl⟩ := Option.map_eq_some_iff.mp (Option.mem_toList.mp hnew)
      exact ⟨hfitted r hr, stage, rfl, granted_mono hsub hstage⟩
  · obtain ⟨entry, hentry, hdatagram⟩ := h.queue datagram hmem
    exact ⟨entry, hsub hentry, hdatagram⟩

theorem sound_reach (hfits : call.params.Fits) (tracker : UdpTracker σ call.isIpv4)
    {s : UdpExchange σ call.isIpv4} (h : s.Sound) {datagram : List UInt8}
    (hmem : datagram ∈ s.sent) : (s.reach tracker datagram).Sound := by
  obtain ⟨stage, rfl, hstage⟩ := mem_sent h hmem
  rw [reach, UdpCall.parse_request hfits]
  exact h.extend hstage (fun r hr => tracker.fitted_answer hr) _

theorem stage_of_connect {asked : UdpStage} {tx : BitVec 32} {connectionId : BitVec 64}
    (h : (call.asked asked).Fitted (@UdpResponse.connect call.isIpv4 tx connectionId)) :
    asked = .connecting := by
  cases asked with
  | connecting => rfl
  | announcing _ => obtain ⟨_, _, _, _, h⟩ | ⟨_, h⟩ := h <;> cases h

theorem stage_of_announce {asked : UdpStage} {tx interval leechers seeders : BitVec 32}
    {peers : UdpPeers call.isIpv4}
    (h : (call.asked asked).Fitted (.announce tx interval leechers seeders peers)) :
    ∃ connectionId, asked = .announcing connectionId := by
  cases asked with
  | connecting => obtain ⟨_, h⟩ | ⟨_, h⟩ := h <;> cases h
  | announcing connectionId => exact ⟨connectionId, rfl⟩

theorem told_connecting {s : UdpExchange σ call.isIpv4} (h : s.Sound)
    {entry : UdpRequest × UdpResponse call.isIpv4} (hentry : entry ∈ s.answered)
    {buf : List UInt8} (hbuf : entry.2.received = buf) :
    Told s.answered (call.receive buf .connecting) := by
  obtain ⟨hfit, asked, hasked, -⟩ := h.answered entry hentry
  obtain ⟨request, response⟩ := entry
  obtain rfl : request = call.asked asked := hasked
  rw [UdpCall.receive]
  cases response with
  | connect tx connectionId =>
    obtain rfl := stage_of_connect hfit
    have hread := @readConnect_connect call.isIpv4 call.transactionId tx connectionId
    rw [hbuf] at hread
    by_cases htx : tx = call.transactionId
    · subst htx
      rw [hread, if_pos rfl]
      exact hentry
    · rw [hread, if_neg htx]
      trivial
  | announce tx interval leechers seeders peers =>
    have hread := readConnect_announce call.transactionId tx interval leechers seeders peers
    rw [hbuf] at hread
    rw [hread]
    trivial
  | error tx text =>
    have hread := @readConnect_error call.isIpv4 call.transactionId tx text
    rw [hbuf] at hread
    by_cases hshort : text.length < 8
    · rw [hread, if_pos hshort]
      trivial
    · rw [hread, if_neg hshort]
      exact ⟨_, tx, text, hentry, rfl⟩

theorem told_announcing {s : UdpExchange σ call.isIpv4} (h : s.Sound) (connectionId : BitVec 64)
    {entry : UdpRequest × UdpResponse call.isIpv4} (hentry : entry ∈ s.answered)
    {buf : List UInt8} (hbuf : entry.2.received = buf) :
    Told s.answered (call.receive buf (.announcing connectionId)) := by
  obtain ⟨hfit, asked, hasked, hgranted⟩ := h.answered entry hentry
  obtain ⟨request, response⟩ := entry
  obtain rfl : request = call.asked asked := hasked
  rw [UdpCall.receive]
  cases response with
  | connect tx connectionId =>
    have hread := @readAnnounce_connect call.isIpv4 call.announceTxId tx connectionId
    rw [hbuf] at hread
    rw [hread]
    trivial
  | announce tx interval leechers seeders peers =>
    obtain ⟨connectionId, rfl⟩ := stage_of_announce hfit
    have hread := readAnnounce_announce call.announceTxId tx interval leechers seeders peers
    rw [hbuf] at hread
    by_cases htx : tx = call.announceTxId
    · subst htx
      rw [hread, if_pos rfl]
      exact ⟨connectionId, interval, leechers, seeders, peers, hgranted, hentry, rfl⟩
    · rw [hread, if_neg htx]
      trivial
  | error tx text =>
    have hread := @readAnnounce_error call.isIpv4 call.announceTxId tx text
    rw [hbuf] at hread
    by_cases hshort : text.length < 12
    · rw [hread, if_pos hshort]
      trivial
    · rw [hread, if_neg hshort]
      exact ⟨_, tx, text, hentry, rfl⟩

theorem told_receive {s : UdpExchange σ call.isIpv4} (h : s.Sound) (stage : UdpStage)
    {entry : UdpRequest × UdpResponse call.isIpv4} (hentry : entry ∈ s.answered) {buf : List UInt8}
    (hbuf : entry.2.received = buf) : Told s.answered (call.receive buf stage) := by
  cases stage with
  | connecting => exact told_connecting h hentry hbuf
  | announcing connectionId => exact told_announcing h connectionId hentry hbuf

theorem counts_done {connects announces : Nat} {connectionId : BitVec 64}
    {result : Except UdpError (List PeerInfo)} (h : result ≠ .error .timedOut) :
    Counts connects announces connectionId (.done result) := by
  cases result with
  | ok peers => trivial
  | error err =>
    cases err with
    | timedOut => exact absurd rfl h
    | _ => trivial

theorem readConnect_ne_timedOut (tx : BitVec 32) (buf : List UInt8) :
    readConnect tx buf ≠ .error .timedOut := by
  rw [readConnect]
  split_ifs <;> rintro ⟨⟩

theorem readAnnounce_ne_timedOut (isIpv4 : Bool) (tx : BitVec 32) (buf : List UInt8) :
    readAnnounce isIpv4 tx buf ≠ .error .timedOut := by
  rw [readAnnounce]
  split_ifs
  · rintro ⟨⟩
  · rintro ⟨⟩
  · rintro ⟨⟩
  · rintro ⟨⟩
  · cases decodeCompactPeers (buf.drop 20) <;> rintro ⟨⟩
  · cases decodeCompactPeers6 (buf.drop 20) <;> rintro ⟨⟩

theorem counts_receive (buf : List UInt8) {connects announces attempt : Nat}
    {connectionId : BitVec 64} {stage : UdpStage}
    (h : Counts connects announces connectionId (.waiting stage attempt)) :
    ∃ id, (0 < announces → id = connectionId) ∧
      Counts connects announces id (call.receive buf stage) := by
  cases stage with
  | connecting =>
    obtain ⟨-, -, rfl⟩ := h
    rw [UdpCall.receive]
    cases hread : readConnect call.transactionId buf with
    | ok id => exact ⟨id, fun hpos => absurd hpos (by decide), rfl, by decide, rfl⟩
    | error err =>
      refine ⟨connectionId, fun _ => rfl, counts_done fun herr => ?_⟩
      exact readConnect_ne_timedOut call.transactionId buf (by rw [hread, Except.error.inj herr])
  | announcing id =>
    exact ⟨connectionId, fun _ => rfl, counts_done (readAnnounce_ne_timedOut _ _ _)⟩

theorem counts_timeout {connects announces attempt : Nat} {connectionId : BitVec 64}
    {stage : UdpStage} (hconnects : connects ≤ UDP_ATTEMPTS) (hannounces : announces ≤ UDP_ATTEMPTS)
    (h : Counts connects announces connectionId (.waiting stage attempt)) :
    Counts connects announces connectionId (UdpCall.timeout stage attempt) := by
  rw [UdpCall.timeout]
  cases stage with
  | connecting =>
    obtain ⟨rfl, -, rfl⟩ := h
    split
    case isTrue hmore => exact ⟨rfl, hmore, rfl⟩
    case isFalse hlast => exact .inl ⟨le_antisymm hconnects (Nat.not_lt.mp hlast), rfl⟩
  | announcing id =>
    obtain ⟨rfl, -, rfl⟩ := h
    split
    case isTrue hmore => exact ⟨rfl, hmore, rfl⟩
    case isFalse hlast => exact .inr (le_antisymm hannounces (Nat.not_lt.mp hlast))

theorem told_timeout {answered : List (UdpRequest × UdpResponse call.isIpv4)} {stage : UdpStage}
    (hstage : Granted call answered stage) (attempt : Nat) :
    Told answered (UdpCall.timeout stage attempt) := by
  rw [UdpCall.timeout]
  split
  · exact hstage
  · trivial

theorem sound_send {s : UdpExchange σ call.isIpv4} (h : s.Sound) {stage : UdpStage} {attempt : Nat}
    (hphase : s.phase = .sending stage attempt) :
    Sound { s with phase := .waiting stage attempt, sent := s.sent ++ [call.request stage] } := by
  obtain ⟨connects, announces, connectionId, hsent, hc, ha, hgranted, hcounts⟩ := h.counted
  have htold := h.told
  rw [hphase] at htold
  refine ⟨?_, h.answered, h.queue, htold⟩
  rw [hphase] at hcounts
  cases stage with
  | connecting =>
    obtain ⟨rfl, hattempt, rfl⟩ := hcounts
    refine ⟨connects + 1, 0, connectionId, ?_, hattempt, ha, hgranted, rfl, connects.succ_pos, rfl⟩
    rw [hsent, List.replicate_zero, List.append_nil, List.append_nil, List.replicate_succ']
  | announcing id =>
    obtain ⟨rfl, hattempt, rfl⟩ := hcounts
    refine ⟨connects, announces + 1, id, ?_, hc, hattempt, fun _ => htold, rfl,
      announces.succ_pos, rfl⟩
    rw [hsent, List.append_assoc, List.replicate_succ']

theorem sound_fails {s : UdpExchange σ call.isIpv4} (h : s.Sound) {err : UdpError}
    (htracker : ∀ message, err ≠ .tracker message) (htimedOut : err ≠ .timedOut) :
    Sound { s with phase := .done (.error err) } := by
  obtain ⟨connects, announces, connectionId, hsent, hc, ha, hgranted, -⟩ := h.counted
  refine ⟨⟨connects, announces, connectionId, hsent, hc, ha, hgranted,
    counts_done fun h => htimedOut (Except.error.inj h)⟩, h.answered, h.queue, ?_⟩
  cases err with
  | tracker message => exact absurd rfl (htracker message)
  | _ => trivial

theorem sound_receive {s : UdpExchange σ call.isIpv4} (h : s.Sound) {stage : UdpStage}
    {attempt : Nat} {datagram : List UInt8} {queue : List (List UInt8)}
    (hphase : s.phase = .waiting stage attempt) (hqueue : s.queue = datagram :: queue) :
    Sound { s with
      phase := call.receive (datagram.take UDP_BUFFER) stage
      queue := queue } := by
  obtain ⟨connects, announces, connectionId, hsent, hc, ha, hgranted, hcounts⟩ := h.counted
  rw [hphase] at hcounts
  obtain ⟨entry, hentry, hdatagram⟩ := h.queue datagram (hqueue ▸ List.mem_cons_self)
  refine ⟨?_, h.answered, fun d hd => h.queue d (hqueue ▸ List.mem_cons_of_mem _ hd),
    told_receive h stage hentry (by rw [hdatagram, UdpResponse.received])⟩
  obtain ⟨id, hid, hcounts'⟩ := @counts_receive call (datagram.take UDP_BUFFER) _ _ _ _ _ hcounts
  obtain rfl | hpos := Nat.eq_zero_or_pos announces
  · exact ⟨connects, 0, id, hsent, hc, ha, fun hpos => absurd hpos (by decide), hcounts'⟩
  · exact ⟨connects, announces, connectionId, hsent, hc, ha, hgranted, hid hpos ▸ hcounts'⟩

theorem sound_timeout {s : UdpExchange σ call.isIpv4} (h : s.Sound) {stage : UdpStage}
    {attempt : Nat} (hphase : s.phase = .waiting stage attempt) :
    Sound { s with phase := UdpCall.timeout stage attempt } := by
  obtain ⟨connects, announces, connectionId, hsent, hc, ha, hgranted, hcounts⟩ := h.counted
  have htold := h.told
  rw [hphase] at htold
  rw [hphase] at hcounts
  exact ⟨⟨connects, announces, connectionId, hsent, hc, ha, hgranted,
    counts_timeout hc ha hcounts⟩, h.answered, h.queue, told_timeout htold attempt⟩

theorem sound_step (hfits : call.params.Fits) (tracker : UdpTracker σ call.isIpv4)
    {s : UdpExchange σ call.isIpv4} (h : s.Sound) (event : UdpEvent σ) :
    (step call tracker s event).Sound := by
  cases event with
  | send =>
    simp only [step]
    split
    case h_1 hphase => exact sound_send h hphase
    case h_2 => exact h
  | sendFails error =>
    simp only [step]
    split
    case h_1 => exact sound_fails h (by rintro message ⟨⟩) (by rintro ⟨⟩)
    case h_2 => exact h
  | receive =>
    simp only [step]
    split
    case h_1 hphase hqueue => exact sound_receive h hphase hqueue
    case h_2 => exact h
  | receiveFails error =>
    simp only [step]
    split
    case h_1 => exact sound_fails h (by rintro message ⟨⟩) (by rintro ⟨⟩)
    case h_2 => exact h
  | timeout =>
    simp only [step]
    split
    case h_1 hphase _ => exact sound_timeout h hphase
    case h_2 => exact h
  | reach index =>
    simp only [step]
    split
    case h_1 hdatagram =>
      exact sound_reach hfits tracker h (List.mem_of_getElem? hdatagram)
    case h_2 => exact h
  | others state => exact ⟨h.counted, h.answered, h.queue, h.told⟩
  | arrive index =>
    simp only [step]
    split
    case h_1 request response hentry =>
      refine ⟨h.counted, h.answered, fun datagram hmem => ?_, h.told⟩
      obtain hold | hnew := List.mem_append.mp hmem
      · exact h.queue datagram hold
      · exact ⟨_, List.mem_of_getElem? hentry, List.mem_singleton.mp hnew⟩
    case h_2 => exact h

theorem sound_run (hfits : call.params.Fits) (tracker : UdpTracker σ call.isIpv4) (state : σ)
    (events : List (UdpEvent σ)) : (exec (step call tracker) (start state) events).Sound :=
  exec_invariant (P := Sound) (fun _ event h => sound_step hfits tracker h event) events (sound_start state)

/-! As long as nothing is left over in the socket, the call can still succeed. -/

def Awaited (call : UdpCall) : UdpStage → UdpResponse call.isIpv4 → Prop
  | .connecting, response => ∃ connectionId, response = .connect call.transactionId connectionId
  | .announcing _, response => ∃ interval leechers seeders peers,
      response = .announce call.announceTxId interval leechers seeders peers

theorem awaited_answer {tracker : UdpTracker σ call.isIpv4} (hgrants : tracker.Grants) (state : σ)
    (stage : UdpStage) : ∃ response, (tracker.answer state (call.asked stage)).2 = some response ∧
      Awaited call stage response := by
  cases stage with
  | connecting =>
    obtain ⟨connectionId, hgranted⟩ := hgrants.1 state
    refine ⟨.connect call.transactionId connectionId, ?_, connectionId, rfl⟩
    exact Option.map_eq_some_iff.mpr ⟨_, hgranted, rfl⟩
  | announcing connectionId =>
    obtain ⟨reply, hgranted⟩ := hgrants.2 state connectionId (announced call.params call.key)
    refine ⟨.announce call.announceTxId reply.1 reply.2.1 reply.2.2.1 reply.2.2.2, ?_,
      _, _, _, _, rfl⟩
    exact Option.map_eq_some_iff.mpr ⟨_, hgranted, rfl⟩

theorem request_mem_sent {s : UdpExchange σ call.isIpv4} (h : s.Sound) {stage : UdpStage}
    {attempt : Nat} (hphase : s.phase = .waiting stage attempt) : call.request stage ∈ s.sent := by
  obtain ⟨connects, announces, connectionId, hsent, -, -, -, hcounts⟩ := h.counted
  rw [hphase] at hcounts
  rw [hsent, List.mem_append, List.mem_replicate, List.mem_replicate]
  cases stage with
  | connecting =>
    obtain ⟨rfl, hpos, -⟩ := hcounts
    exact .inl ⟨hpos.ne', rfl⟩
  | announcing id =>
    obtain ⟨rfl, hpos, rfl⟩ := hcounts
    exact .inr ⟨hpos.ne', rfl⟩

theorem can_receive (hfits : call.params.Fits) {tracker : UdpTracker σ call.isIpv4}
    (hgrants : tracker.Grants) {s : UdpExchange σ call.isIpv4} (h : s.Sound)
    (hqueue : s.queue = []) {stage : UdpStage} {attempt : Nat}
    (hphase : s.phase = .waiting stage attempt) :
    ∃ later response, Awaited call stage response ∧
      (exec (step call tracker) s later).queue = [] ∧
      (exec (step call tracker) s later).phase = call.receive response.received stage := by
  obtain ⟨index, hindex⟩ := List.getElem?_of_mem (request_mem_sent h hphase)
  obtain ⟨response, hresponse, hawaited⟩ := awaited_answer hgrants s.tracker stage
  refine ⟨[.reach index, .arrive s.answered.length, .receive], response, hawaited, ?_⟩
  have hreach : step call tracker s (.reach index) = { s with
      tracker := (tracker.answer s.tracker (call.asked stage)).1
      answered := s.answered ++ [(call.asked stage, response)] } := by
    simp only [step, hindex, reach, UdpCall.parse_request hfits, hresponse, Option.map_some,
      Option.toList_some]
  simp only [exec_cons, exec_nil, hreach]
  simp [step, hphase, hqueue, UdpResponse.received]

theorem can_announce (hfits : call.params.Fits) {tracker : UdpTracker σ call.isIpv4}
    (hgrants : tracker.Grants) {s : UdpExchange σ call.isIpv4} (h : s.Sound)
    (hqueue : s.queue = []) {connectionId : BitVec 64} {attempt : Nat}
    (hphase : s.phase = .waiting (.announcing connectionId) attempt) :
    ∃ later peers, (exec (step call tracker) s later).phase = .done (.ok peers) := by
  obtain ⟨later, _, ⟨interval, leechers, seeders, peers, rfl⟩, -, hdone⟩ :=
    can_receive hfits hgrants h hqueue hphase
  refine ⟨later, (peers.val.take (udpRoom call.isIpv4)).map .mk, ?_⟩
  rw [hdone, UdpCall.receive, readAnnounce_announce, if_pos rfl]

theorem can_wait (hfits : call.params.Fits) (tracker : UdpTracker σ call.isIpv4)
    {s : UdpExchange σ call.isIpv4} (h : s.Sound) (hqueue : s.queue = []) {stage : UdpStage}
    {attempt : Nat} (hphase : s.phase = .sending stage attempt) :
    (step call tracker s .send).Sound ∧ (step call tracker s .send).queue = [] ∧
      (step call tracker s .send).phase = .waiting stage attempt :=
  ⟨sound_step hfits tracker h .send, by simp [step, hphase, hqueue], by simp [step, hphase]⟩

theorem can_connect (hfits : call.params.Fits) {tracker : UdpTracker σ call.isIpv4}
    (hgrants : tracker.Grants) {s : UdpExchange σ call.isIpv4} (h : s.Sound)
    (hqueue : s.queue = []) {attempt : Nat} (hphase : s.phase = .waiting .connecting attempt) :
    ∃ later peers, (exec (step call tracker) s later).phase = .done (.ok peers) := by
  obtain ⟨connect, _, ⟨connectionId, rfl⟩, hempty, hconnected⟩ :=
    can_receive hfits hgrants h hqueue hphase
  rw [UdpCall.receive, readConnect_connect, if_pos rfl] at hconnected
  have hsound : (exec (step call tracker) s connect).Sound :=
    exec_invariant (P := Sound) (fun _ event h => sound_step hfits tracker h event) connect h
  obtain ⟨hsent, hqueue', hwaiting⟩ := can_wait hfits tracker hsound hempty hconnected
  obtain ⟨announce, peers, hdone⟩ := can_announce hfits hgrants hsent hqueue' hwaiting
  exact ⟨connect ++ .send :: announce, peers, by rwa [exec_append, exec_cons]⟩

theorem can_succeed (hfits : call.params.Fits) {tracker : UdpTracker σ call.isIpv4}
    (hgrants : tracker.Grants) {s : UdpExchange σ call.isIpv4} (h : s.Sound)
    (hqueue : s.queue = []) (hopen : ∀ result, s.phase ≠ .done result) :
    ∃ later peers, (exec (step call tracker) s later).phase = .done (.ok peers) := by
  have hwait (s : UdpExchange σ call.isIpv4) (h : s.Sound) (hqueue : s.queue = [])
      {stage : UdpStage} {attempt : Nat} (hphase : s.phase = .waiting stage attempt) :
      ∃ later peers, (exec (step call tracker) s later).phase = .done (.ok peers) := by
    cases stage with
    | connecting => exact can_connect hfits hgrants h hqueue hphase
    | announcing connectionId => exact can_announce hfits hgrants h hqueue hphase
  cases hphase : s.phase with
  | sending stage attempt =>
    obtain ⟨hsent, hqueue', hwaiting⟩ := can_wait hfits tracker h hqueue hphase
    obtain ⟨later, peers, hdone⟩ := hwait _ hsent hqueue' hwaiting
    exact ⟨.send :: later, peers, hdone⟩
  | waiting stage attempt => exact hwait s h hqueue hphase
  | done result => exact absurd hphase (hopen result)

/-- However the network loses, repeats, delays and reorders the datagrams, and whatever the tracker
does for others meanwhile: no request is sent more than twice; peers are only returned that the
tracker listed for this very announce, under a connection id that it had given out, as many of them
as fit into the buffer; a refusal is the tracker's own; the call only times out when one request was
sent twice; and unless an answer that comes too late is still in the socket, it can always succeed
with a tracker that refuses nothing. -/
theorem udp_announce_served (tracker : UdpTracker σ call.isIpv4) (hfits : call.params.Fits)
    (state : σ) (events : List (UdpEvent σ)) :
    let s := exec (step call tracker) (start state) events
    (∃ connects announces connectionId, connects ≤ UDP_ATTEMPTS ∧ announces ≤ UDP_ATTEMPTS ∧
      s.sent = List.replicate connects (call.request .connecting) ++
        List.replicate announces (call.request (.announcing connectionId)) ∧
      (s.phase = .done (.error .timedOut) →
        connects = UDP_ATTEMPTS ∧ announces = 0 ∨ announces = UDP_ATTEMPTS)) ∧
    (∀ peers, s.phase = .done (.ok peers) → Served call s.answered peers) ∧
    (∀ message, s.phase = .done (.error (.tracker message)) → Refused s.answered message) ∧
    (tracker.Grants → s.queue = [] → (∀ result, s.phase ≠ .done result) →
      ∃ later peers, (exec (step call tracker) (start state) (events ++ later)).phase =
        .done (.ok peers)) := by
  intro s
  have h : s.Sound := sound_run hfits tracker state events
  obtain ⟨connects, announces, connectionId, hsent, hc, ha, -, hcounts⟩ := h.counted
  refine ⟨⟨connects, announces, connectionId, hc, ha, hsent, fun hphase => ?_⟩,
    fun peers hphase => ?_, fun message hphase => ?_, fun hgrants hqueue hopen => ?_⟩
  · rw [hphase] at hcounts
    exact hcounts
  · have htold := h.told
    rw [hphase] at htold
    exact htold
  · have htold := h.told
    rw [hphase] at htold
    exact htold
  · obtain ⟨later, peers, hdone⟩ := can_succeed hfits hgrants h hqueue hopen
    exact ⟨later, peers, by rwa [exec_append]⟩

def onePeerTracker : UdpTracker Nat true where
  connect state := (state + 1, some (.ok (.ofNat 64 state)))
  announce state _ _ := (state, some (.ok (1800, 0, 1, ⟨[.v4 1 6881], by simp [SocketAddr.isIpv6]⟩)))

def onePeerCall : UdpCall where
  isIpv4 := true
  params := ⟨⟨List.replicate 20 7, rfl⟩, List.replicate 20 1, 6881, 0, 0, 5, some "started"⟩
  transactionId := 11
  announceTxId := 12
  key := 13

theorem udp_announce_served_onePeer :
    Served onePeerCall (exec (step onePeerCall onePeerTracker) (start 0)
      [.send, .timeout, .send, .reach 1, .arrive 0, .receive, .reach 0, .send, .reach 2, .arrive 2,
        .receive]).answered [⟨.v4 1 6881⟩] :=
  (@udp_announce_served _ onePeerCall onePeerTracker
    ⟨rfl, by decide, by decide, by decide, by decide⟩ 0
    [.send, .timeout, .send, .reach 1, .arrive 0, .receive, .reach 0, .send, .reach 2, .arrive 2,
      .receive]).2.1 _
    (by decide +kernel)

end UdpExchange

end Tracker
end Tortor.Net
