import Tortor.Lib.Lowest
import Tortor.Net.Actor
import Tortor.Net.RoutingInserts

/-! Compact lists of peers and nodes are decoded to what they were encoded from. -/

namespace Tortor.Net

open Tortor.Core (IpAddr SocketAddr)
open Tortor.Lib

theorem length_toBeBytes (n value : Nat) : (toBeBytes n value).length = n := by
  induction n with
  | zero => rfl
  | succ n ih => rw [toBeBytes, List.length_cons, ih]

theorem beNat_toBeBytes (n value : Nat) : beNat (toBeBytes n value) = value % 256 ^ n := by
  induction n with
  | zero => rw [toBeBytes, beNat, Nat.pow_zero, Nat.mod_one]
  | succ n ih =>
    have hsplit : value % 256 ^ (n + 1) = value % 256 ^ n + 256 ^ n * (value / 256 ^ n % 256) :=
      Nat.mod_pow_succ
    rw [toBeBytes, beNat, length_toBeBytes, ih, UInt8.toNat_ofNat', hsplit, Nat.add_comm,
      Nat.mul_comm]

theorem ofNat_beNat {w n : Nat} (h : 2 ^ w = 256 ^ n) (x : BitVec w) :
    BitVec.ofNat w (beNat (toBeBytes n x.toNat)) = x := by
  rw [beNat_toBeBytes, ← h, Nat.mod_eq_of_lt x.isLt, BitVec.ofNat_toNat, BitVec.setWidth_eq]

theorem chunksExact_append {n : Nat} (hn : 0 < n) {chunk : List UInt8} (hchunk : chunk.length = n)
    (rest : List UInt8) : chunksExact n (chunk ++ rest) = chunk :: chunksExact n rest := by
  have hcount : (chunk ++ rest).length / n = rest.length / n + 1 := by
    rw [List.length_append, hchunk, Nat.add_comm, Nat.add_div_right _ hn]
  rw [chunksExact, hcount, List.range_succ_eq_map, List.map_cons, List.map_map, Nat.mul_zero,
    List.drop_zero, List.take_left' hchunk, chunksExact]
  congr 1
  refine List.map_congr_left fun i _ => ?_
  rw [Function.comp_apply, Nat.succ_eq_add_one, Nat.mul_add, Nat.mul_one, Nat.add_comm,
    ← List.drop_drop, List.drop_left' hchunk]

theorem chunksExact_flatMap {α : Type} {n : Nat} (hn : 0 < n) (f : α → List UInt8) (l : List α)
    (h : ∀ x ∈ l, (f x).length = n) : chunksExact n (l.flatMap f) = l.map f := by
  induction l with
  | nil => simp [chunksExact]
  | cons x l ih =>
    obtain ⟨hx, hl⟩ := List.forall_mem_cons.mp h
    rw [List.flatMap_cons, chunksExact_append hn hx, ih hl, List.map_cons]

theorem length_flatMap_const {α : Type} {n : Nat} (f : α → List UInt8) (l : List α)
    (h : ∀ x ∈ l, (f x).length = n) : (l.flatMap f).length = n * l.length := by
  induction l with
  | nil => rfl
  | cons x l ih =>
    obtain ⟨hx, hl⟩ := List.forall_mem_cons.mp h
    rw [List.flatMap_cons, List.length_append, hx, ih hl, List.length_cons, Nat.mul_add, Nat.mul_one,
      Nat.add_comm]

def compactAddr : SocketAddr → List UInt8
  | .v4 ip port => toBeBytes 4 ip.toNat ++ toBeBytes 2 port.toNat
  | .v6 ip port => toBeBytes 16 ip.toNat ++ toBeBytes 2 port.toNat

def compactWidth (v6 : Bool) : Nat := if v6 then 18 else 6

def decodeFamily (v6 : Bool) (bytes : List UInt8) : List SocketAddr :=
  if v6 then decodeCompactIpv6 bytes else decodeCompactIpv4 bytes

theorem compactWidth_pos (v6 : Bool) : 0 < compactWidth v6 := by cases v6 <;> decide

theorem length_compactAddr (addr : SocketAddr) :
    (compactAddr addr).length = compactWidth addr.isIpv6 := by
  cases addr <;> rw [compactAddr, List.length_append, length_toBeBytes, length_toBeBytes] <;> rfl

theorem decodeFamily_flatMap {v6 : Bool} {addrs : List SocketAddr}
    (h : ∀ addr ∈ addrs, addr.isIpv6 = v6) :
    decodeFamily v6 (addrs.flatMap compactAddr) = addrs := by
  have hwidth : ∀ addr ∈ addrs, (compactAddr addr).length = compactWidth v6 := fun addr haddr => by
    rw [length_compactAddr, h addr haddr]
  have hchunks := chunksExact_flatMap (compactWidth_pos v6) compactAddr addrs hwidth
  cases v6 with
  | false =>
    rw [decodeFamily, if_neg Bool.false_ne_true, decodeCompactIpv4]
    rw [show (6 : Nat) = compactWidth false from rfl, hchunks, List.map_map]
    refine (List.map_congr_left fun addr haddr => ?_).trans (List.map_id addrs)
    cases addr with
    | v4 ip port =>
      rw [Function.comp_apply, compactAddr, List.take_left' (length_toBeBytes ..),
        List.drop_left' (length_toBeBytes ..), ofNat_beNat (by decide), ofNat_beNat (by decide)]
      rfl
    | v6 =>
      have hother : true = false := h _ haddr
      cases hother
  | true =>
    rw [decodeFamily, if_pos rfl, decodeCompactIpv6]
    rw [show (18 : Nat) = compactWidth true from rfl, hchunks, List.map_map]
    refine (List.map_congr_left fun addr haddr => ?_).trans (List.map_id addrs)
    cases addr with
    | v4 =>
      have hother : false = true := h _ haddr
      cases hother
    | v6 ip port =>
      rw [Function.comp_apply, compactAddr, List.take_left' (length_toBeBytes ..),
        List.drop_left' (length_toBeBytes ..), ofNat_beNat (by decide), ofNat_beNat (by decide)]
      rfl

def ofFamily (v6 : Bool) (peers : List SocketAddr) : List SocketAddr :=
  (peers.map canonical).filter fun addr => addr.isIpv6 == v6

theorem canonical_canonical (addr : SocketAddr) : canonical (canonical addr) = canonical addr := by
  cases addr with
  | v4 => rfl
  | v6 ip port =>
    cases hmapped : toIpv4Mapped ip with
    | none => simp only [canonical, hmapped]
    | some => simp only [canonical, hmapped]

theorem isIpv6_of_mem_ofFamily {v6 : Bool} {peers : List SocketAddr} {addr : SocketAddr}
    (h : addr ∈ ofFamily v6 peers) : addr.isIpv6 = v6 :=
  beq_iff_eq.mp (List.mem_filter.mp h).2

theorem splitCompact_eq (peers : List SocketAddr) : splitCompact peers =
    ((ofFamily false peers).flatMap compactAddr, (ofFamily true peers).flatMap compactAddr) := by
  induction peers with
  | nil => rfl
  | cons peer peers ih =>
    rw [splitCompact, ih]
    cases hpeer : canonical peer with
    | v4 ip port => simp [ofFamily, hpeer, SocketAddr.isIpv6, compactAddr]
    | v6 ip port => simp [ofFamily, hpeer, SocketAddr.isIpv6, compactAddr]

theorem length_ofFamily (v6 : Bool) (peers : List SocketAddr) :
    ((ofFamily v6 peers).flatMap compactAddr).length =
      compactWidth v6 * (ofFamily v6 peers).length :=
  length_flatMap_const compactAddr _ fun addr haddr => by
    rw [length_compactAddr, isIpv6_of_mem_ofFamily haddr]

theorem decodeFamily_ofFamily (v6 : Bool) (peers : List SocketAddr) :
    decodeFamily v6 ((ofFamily v6 peers).flatMap compactAddr) = ofFamily v6 peers :=
  decodeFamily_flatMap fun _ => isIpv6_of_mem_ofFamily

theorem mem_decode_splitCompact {peers : List SocketAddr} {addr : SocketAddr} :
    addr ∈ decodeCompactIpv4 (splitCompact peers).1 ++ decodeCompactIpv6 (splitCompact peers).2 ↔
      addr ∈ peers.map canonical := by
  have h4 := decodeFamily_ofFamily false peers
  have h6 := decodeFamily_ofFamily true peers
  change decodeCompactIpv4 _ = _ at h4
  change decodeCompactIpv6 _ = _ at h6
  rw [splitCompact_eq, h4, h6, List.mem_append, ofFamily, ofFamily, List.mem_filter, List.mem_filter,
    ← and_or_left, and_iff_left_iff_imp]
  intro _
  cases addr.isIpv6 <;> decide

/-! The tracker has decoders of its own. -/

namespace Tracker

structure PeerInfo where
  addr : SocketAddr
  deriving DecidableEq

def decodeCompactPeers (peersData : List UInt8) : Except String (List PeerInfo) :=
  if peersData.length % 6 ≠ 0 then
    .error s!"invalid compact peers payload length: {peersData.length} (must be multiple of 6)"
  else .ok ((decodeCompactIpv4 peersData).map .mk)

def decodeCompactPeers6 (peersData : List UInt8) : Except String (List PeerInfo) :=
  if peersData.length % 18 ≠ 0 then
    .error s!"invalid compact peers6 payload length: {peersData.length} (must be multiple of 18)"
  else .ok ((decodeCompactIpv6 peersData).map .mk)

end Tracker

/-- `std::net::SocketAddr` with the flow info and the scope id, which nothing else here looks at. -/
inductive ScopedAddr
  | v4 (ip : BitVec 32) (port : BitVec 16)
  | v6 (ip : BitVec 128) (port : BitVec 16) (flowinfo scopeId : BitVec 32)
  deriving DecidableEq

namespace ScopedAddr

def plain : ScopedAddr → SocketAddr
  | .v4 ip port => .v4 ip port
  | .v6 ip port _ _ => .v6 ip port

/-- The address that a decoder makes of an ip and a port, with `SocketAddrV6::new(ip, port, 0, 0)`
for IPv6. -/
def unscoped : SocketAddr → ScopedAddr
  | .v4 ip port => .v4 ip port
  | .v6 ip port => .v6 ip port 0 0

def family (v6 : Bool) (peers : List ScopedAddr) : List ScopedAddr :=
  (ofFamily v6 (peers.map plain)).map unscoped

end ScopedAddr

open ScopedAddr

def splitScoped (peers : List ScopedAddr) : List UInt8 × List UInt8 :=
  splitCompact (peers.map plain)

theorem splitScoped_eq (peers : List ScopedAddr) : splitScoped peers =
    ((ofFamily false (peers.map plain)).flatMap compactAddr,
      (ofFamily true (peers.map plain)).flatMap compactAddr) := splitCompact_eq _

/-- Both lists are read back by both pairs of decoders, and a pex message carries two of them. -/
theorem compact_round_trip (peers added dropped : List ScopedAddr) :
    (6 ∣ (splitScoped peers).1.length ∧ 18 ∣ (splitScoped peers).2.length) ∧
    ((decodeCompactIpv4 (splitScoped peers).1).map unscoped = family false peers ∧
      (decodeCompactIpv6 (splitScoped peers).2).map unscoped = family true peers) ∧
    ((Tracker.decodeCompactPeers (splitScoped peers).1).map (·.map fun peer => unscoped peer.addr) =
        .ok (family false peers) ∧
      (Tracker.decodeCompactPeers6 (splitScoped peers).2).map
          (·.map fun peer => unscoped peer.addr) = .ok (family true peers)) ∧
    let message := PexMessage.fromPeers (added.map plain) (dropped.map plain)
    message.decodeAdded.map unscoped = family false added ++ family true added ∧
      message.addedF.length = (family false added).length ∧
      message.added6F.length = (family true added).length := by
  have hlength (v6 : Bool) (peers : List ScopedAddr) :=
    length_ofFamily v6 (peers.map plain)
  have hread (v6 : Bool) (peers : List ScopedAddr) :=
    decodeFamily_ofFamily v6 (peers.map plain)
  have hcount (v6 : Bool) (peers : List ScopedAddr) :
      (family v6 peers).length = (ofFamily v6 (peers.map plain)).length := List.length_map ..
  have h4 : decodeCompactIpv4 = decodeFamily false := rfl
  have h6 : decodeCompactIpv6 = decodeFamily true := rfl
  simp only [splitScoped_eq]
  refine ⟨⟨⟨_, hlength false peers⟩, ⟨_, hlength true peers⟩⟩, ⟨?_, ?_⟩, ⟨?_, ?_⟩, ?_⟩
  · rw [h4, hread]
    rfl
  · rw [h6, hread]
    rfl
  · rw [Tracker.decodeCompactPeers, if_neg (by rw [hlength]; simp [compactWidth]), h4, hread]
    simp [Except.map, family]
  · rw [Tracker.decodeCompactPeers6, if_neg (by rw [hlength]; simp [compactWidth]), h6, hread]
    simp [Except.map, family]
  · simp only [PexMessage.fromPeers, splitCompact_eq, PexMessage.decodeAdded, h4, h6, hread,
      List.map_append, List.length_replicate, hlength, hcount]
    exact ⟨rfl, Nat.mul_div_cancel_left _ (by decide), Nat.mul_div_cancel_left _ (by decide)⟩

def encodeCompactIpv4 (peers : List SocketAddr) : List UInt8 := (splitCompact peers).1

theorem ofFamily_of_ipv4 {peers : List SocketAddr} (h : ∀ peer ∈ peers, peer.isIpv6 = false) :
    ofFamily false peers = peers := by
  have hcanonical : peers.map canonical = peers :=
    (List.map_congr_left fun peer hpeer => by
      cases peer with
      | v4 => rfl
      | v6 =>
        have hother : true = false := h _ hpeer
        cases hother).trans (List.map_id peers)
  rw [ofFamily, hcanonical]
  exact List.filter_eq_self.mpr fun peer hpeer => beq_iff_eq.mpr (h peer hpeer)

theorem decodeCompactPeers_ipv4 {peers : List SocketAddr}
    (h : ∀ peer ∈ peers, peer.isIpv6 = false) (hlen : peers.length ≠ 3) :
    decodeCompactPeers (encodeCompactIpv4 peers) = peers := by
  have hlength := length_ofFamily false peers
  have hread := decodeFamily_ofFamily false peers
  rw [ofFamily_of_ipv4 h] at hlength hread
  rw [encodeCompactIpv4, splitCompact_eq, ofFamily_of_ipv4 h, decodeCompactPeers,
    if_neg (by rw [hlength, compactWidth]; simp; omega)]
  exact hread

/-- Three IPv4 peers take as many bytes as one IPv6 peer. -/
theorem decodeCompactPeers_three {peers : List SocketAddr}
    (h : ∀ peer ∈ peers, peer.isIpv6 = false) (hlen : peers.length = 3) :
    (decodeCompactPeers (encodeCompactIpv4 peers)).length = 1 := by
  have hlength := length_ofFamily false peers
  rw [ofFamily_of_ipv4 h, hlen, compactWidth, if_neg Bool.false_ne_true] at hlength
  rw [encodeCompactIpv4, splitCompact_eq, ofFamily_of_ipv4 h, decodeCompactPeers, if_pos hlength,
    decodeCompactIpv6, List.length_map, chunksExact, List.length_map, List.length_range, hlength]

theorem encodeValue_ipv6 {ip : BitVec 128} (hmapped : toIpv4Mapped ip = none) (port : BitVec 16) :
    encodeValue (.v6 ip port) = some (compactAddr (.v6 ip port)) ∧
      decodeCompactPeers (compactAddr (.v6 ip port)) = [.v6 ip port] := by
  have hlength : (compactAddr (.v6 ip port)).length = 18 := length_compactAddr (.v6 ip port)
  have hread : decodeFamily true ([SocketAddr.v6 ip port].flatMap compactAddr) = [.v6 ip port] :=
    decodeFamily_flatMap fun addr haddr => by
      rw [List.mem_singleton.mp haddr]
      rfl
  rw [List.flatMap_singleton] at hread
  constructor
  · have hne : (compactAddr (.v6 ip port)).isEmpty = false := by
      rw [← Bool.not_eq_true, List.isEmpty_iff]
      intro hnil
      rw [hnil] at hlength
      cases hlength
    rw [encodeValue, splitCompact_eq]
    simp [ofFamily, canonical, hmapped, SocketAddr.isIpv6, hne]
  · rw [decodeCompactPeers, if_pos hlength]
    exact hread

/-- A list of IPv4 peers is read back unless it is as long as an IPv6 peer.  An IPv6 peer is read
back as far as the format goes. -/
theorem values_decode_iff {peers : List SocketAddr} (hipv4 : ∀ peer ∈ peers, peer.isIpv6 = false)
    {ip : BitVec 128} (hmapped : toIpv4Mapped ip = none) (port : BitVec 16)
    (flowinfo scopeId : BitVec 32) :
    (decodeCompactPeers (encodeCompactIpv4 peers) = peers ↔ peers.length ≠ 3) ∧
      ∃ raw, encodeValue (plain (.v6 ip port flowinfo scopeId)) = some raw ∧
        ((decodeCompactPeers raw).map unscoped = [.v6 ip port flowinfo scopeId] ↔
          flowinfo = 0 ∧ scopeId = 0) := by
  constructor
  · constructor
    · intro hsame hlen
      have hone := decodeCompactPeers_three hipv4 hlen
      rw [hsame, hlen] at hone
      cases hone
    · exact decodeCompactPeers_ipv4 hipv4
  · obtain ⟨hencode, hdecode⟩ := encodeValue_ipv6 hmapped port
    refine ⟨_, hencode, ?_⟩
    rw [hdecode]
    simp only [List.map_cons, List.map_nil, unscoped, List.cons.injEq, and_true, v6.injEq, true_and]
    exact and_congr eq_comm eq_comm

theorem values_decode_two :
    decodeCompactPeers (encodeCompactIpv4 [.v4 0x0a000001 6881, .v4 0x0a000002 6882]) =
      [.v4 0x0a000001 6881, .v4 0x0a000002 6882] :=
  (@values_decode_iff [.v4 0x0a000001 6881, .v4 0x0a000002 6882] (by decide) 1 (by decide)
    6881 0 0).1.mpr (by decide)

theorem values_decode_three :
    ¬ ∀ peers : List SocketAddr, peers ≠ [] → (∀ peer ∈ peers, peer.isIpv6 = false) →
      decodeCompactPeers (encodeCompactIpv4 peers) = peers := by
  intro h
  exact absurd (h [.v4 0x0a000001 6881, .v4 0x0a000002 6881, .v4 0x0a000003 6881] (by decide)
    (by decide)) (by decide +kernel)

def canonicalNode (contact : Contact) : Contact := ⟨contact.id, canonical contact.addr⟩

def compactNode (contact : Contact) : List UInt8 := contact.id.bytes ++ compactAddr contact.addr

theorem length_compactNode (contact : Contact) :
    (compactNode contact).length = 20 + compactWidth contact.addr.isIpv6 := by
  rw [compactNode, List.length_append, contact.id.size, length_compactAddr]

theorem encodeNodes_eq (contacts : List Contact) : encodeNodes contacts =
    (((contacts.map canonicalNode).filter fun c => c.addr.isIpv6 == false).flatMap compactNode,
      ((contacts.map canonicalNode).filter fun c => c.addr.isIpv6 == true).flatMap compactNode) := by
  induction contacts with
  | nil => rfl
  | cons contact contacts ih =>
    rw [encodeNodes, ih]
    cases haddr : canonical contact.addr with
    | v4 ip port =>
      simp [canonicalNode, compactNode, haddr, SocketAddr.isIpv6, compactAddr]
    | v6 ip port =>
      simp [canonicalNode, compactNode, haddr, SocketAddr.isIpv6, compactAddr]

theorem decodeNodes_flatMap {v6 : Bool} {contacts : List Contact}
    (h : ∀ contact ∈ contacts, contact.addr.isIpv6 = v6) :
    decodeNodes (compactWidth v6) (decodeFamily v6) (contacts.flatMap compactNode) = contacts := by
  have hwidth : ∀ contact ∈ contacts, (compactNode contact).length = 20 + compactWidth v6 :=
    fun contact hcontact => by rw [length_compactNode, h contact hcontact]
  rw [decodeNodes, chunksExact_flatMap (by omega) compactNode contacts hwidth, List.filterMap_map]
  refine (List.filterMap_congr fun contact hcontact => ?_).trans (List.filterMap_some (l := contacts))
  have haddr : decodeFamily v6 ([contact.addr].flatMap compactAddr) = [contact.addr] :=
    decodeFamily_flatMap fun addr haddr => by
      rw [List.mem_singleton.mp haddr]
      exact h contact hcontact
  have hid : NodeId.ofBytes contact.id.bytes = some contact.id := dif_pos contact.id.size
  rw [List.flatMap_singleton] at haddr
  rw [Function.comp_apply, compactNode, List.drop_left' contact.id.size,
    List.take_left' contact.id.size, haddr, hid]
  rfl

theorem decode_encodeNodes {v6 : Bool} {contacts : List Contact}
    (h : ∀ contact ∈ contacts, (canonical contact.addr).isIpv6 = v6) :
    (decodeCompactNodes (encodeNodes contacts).1, decodeCompactNodes6 (encodeNodes contacts).2) =
        (if v6 then ([], contacts.map canonicalNode) else (contacts.map canonicalNode, [])) ∧
      (if v6 then (encodeNodes contacts).1 else (encodeNodes contacts).2) = [] := by
  have hall : ∀ contact ∈ contacts.map canonicalNode, contact.addr.isIpv6 = v6 := fun contact hc => by
    obtain ⟨original, horiginal, rfl⟩ := List.mem_map.mp hc
    exact h original horiginal
  have hread := decodeNodes_flatMap hall
  have hsame : (contacts.map canonicalNode).filter (fun c => c.addr.isIpv6 == v6) =
      contacts.map canonicalNode :=
    List.filter_eq_self.mpr fun contact hc => beq_iff_eq.mpr (hall contact hc)
  have hother : (contacts.map canonicalNode).filter (fun c => c.addr.isIpv6 == !v6) = [] :=
    List.filter_eq_nil_iff.mpr fun contact hc => by simp [hall contact hc]
  have hnone4 : decodeCompactNodes [] = [] := rfl
  have hnone6 : decodeCompactNodes6 [] = [] := rfl
  rw [encodeNodes_eq]
  cases v6 with
  | false =>
    rw [Bool.not_false] at hother
    simp only [hsame, hother, List.flatMap_nil, hnone6, Bool.false_eq_true, if_false, and_true]
    exact congrArg (·, []) hread
  | true =>
    rw [Bool.not_true] at hother
    simp only [hsame, hother, List.flatMap_nil, hnone4, if_true, and_true]
    exact congrArg ([], ·) hread

/-- A reply carries the closest nodes of the family of the requester, and no others. -/
theorem nodesFor_closest (self : DhtManager) (target : NodeId) (requester : SocketAddr)
    (hdistinct : self.routingTable.stored.Nodup) :
    let sameFamily := self.routingTable.entries.filter fun c =>
      (canonical c.addr).isIpv6 == requester.isIpv6
    ∃ closest : List Contact,
      (closest.Pairwise fun c d => target.distance c.id < target.distance d.id) ∧
      closest.length = min 8 sameFamily.length ∧ (∀ c ∈ closest, c ∈ sameFamily) ∧
      (∀ c ∈ sameFamily, c ∈ closest ∨ ∀ d ∈ closest, target.distance d.id < target.distance c.id) ∧
      (decodeCompactNodes (self.nodesFor target requester).1,
          decodeCompactNodes6 (self.nodesFor target requester).2) =
        (if requester.isIpv6 then ([], closest.map canonicalNode)
          else (closest.map canonicalNode, [])) ∧
      (if requester.isIpv6 then (self.nodesFor target requester).1
        else (self.nodesFor target requester).2) = [] := by
  intro sameFamily
  have hkeys : (sameFamily.map fun c => target.distance c.id).Nodup := by
    rw [RoutingTable.stored_eq] at hdistinct
    have hids : (sameFamily.map (·.id)).Nodup := hdistinct.sublist (List.filter_sublist.map _)
    have hmapped := hids.map (f := target.distance) fun _ _ => NodeId.distance_inj
    rwa [List.map_map] at hmapped
  have hstrict := strictly_sorted_sort hkeys
  refine ⟨keepLowest (fun c => target.distance c.id) K sameFamily, hstrict.sublist (List.take_sublist _ _),
    ?_, fun c => mem_of_mem_keepLowest, fun c hc => ?_, ?_⟩
  · rw [keepLowest, List.length_take, List.length_mergeSort]
    rfl
  · by_cases hkept : c ∈ keepLowest (fun c => target.distance c.id) K sameFamily
    · exact .inl hkept
    refine .inr fun d hd => ?_
    have hle := ((mem_keepLowest_or (fun c => target.distance c.id) K hc).resolve_left hkept).2 d hd
    refine Nat.lt_of_le_of_ne hle fun heq => hkept ?_
    have hsame : d = c := List.inj_on_of_nodup_map hkeys (mem_of_mem_keepLowest hd) hc heq
    exact hsame ▸ hd
  · exact decode_encodeNodes fun c hc => beq_iff_eq.mp (List.mem_filter.mp (mem_of_mem_keepLowest hc)).2

theorem nodesFor_closest_mapped :
    let secret : Secret := ⟨List.replicate 16 0, rfl⟩
    let node (byte : UInt8) (addr : SocketAddr) : Contact := ⟨⟨List.replicate 20 byte, rfl⟩, addr⟩
    let table : RoutingTable := ⟨⟨List.replicate 20 0, rfl⟩,
      [⟨[node 1 (.v6 0xffff0a000001 6881), node 2 (.v6 5 6881)], 0⟩]⟩
    ((DhtManager.new table.localId table secret secret 0).nodesFor table.localId
      (.v4 0x0a000002 6881)).2 = [] := by
  intro secret node table
  obtain ⟨_, -, -, -, -, -, hother⟩ := nodesFor_closest
    (DhtManager.new table.localId table secret secret 0) table.localId (.v4 0x0a000002 6881)
    (by decide +kernel)
  exact hother

end Tortor.Net
