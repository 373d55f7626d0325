import Tortor.Lib.Run
import Tortor.Net.Actor

/-! What the tokens of the node vouch for: who gets into its peer store, and who is kept out. -/

namespace Tortor.Net

open Tortor.Core (Digest IpAddr SocketAddr)
open Tortor.Lib

namespace PeerStore

def Holds (self : PeerStore) (infoHash : NodeId) (addr : SocketAddr) : Prop :=
  ∃ list, self.peers.lookup infoHash = some list ∧ addr ∈ list.map Prod.fst

theorem map_fst_touch (addr : SocketAddr) (now : Nat) (list : List (SocketAddr × Nat)) :
    (touch addr now list).map Prod.fst = list.map Prod.fst := by
  induction list with
  | nil => rfl
  | cons entry rest ih =>
    rw [touch]
    split
    · rfl
    · rw [List.map_cons, List.map_cons, ih]

theorem holds_add {self : PeerStore} {infoHash torrent : NodeId} {addr peer : SocketAddr} {now : Nat}
    (h : (self.add infoHash addr now).Holds torrent peer) :
    (torrent = infoHash ∧ peer = addr) ∨ self.Holds torrent peer := by
  rw [add] at h
  split at h
  · exact Or.inr h
  · obtain ⟨list, hlist, hpeer⟩ := h
    by_cases htorrent : torrent = infoHash
    · rw [htorrent, AList.lookup_insert] at hlist
      -- What was in the old list was stored before; only `addr` can be new.
      have hold : peer = addr ∨ peer ∈ ((self.peers.lookup infoHash).getD []).map Prod.fst := by
        rw [← Option.some.inj hlist] at hpeer
        split at hpeer
        · rw [map_fst_touch] at hpeer
          exact Or.inr hpeer
        · rw [List.map_append, List.mem_append, List.map_singleton, List.mem_singleton] at hpeer
          rcases hpeer with hrest | hnew
          · split at hrest
            · rw [List.map_tail] at hrest
              exact Or.inr (List.mem_of_mem_tail hrest)
            · exact Or.inr hrest
          · exact Or.inl hnew
      rcases hold with rfl | hmem
      · exact Or.inl ⟨htorrent, rfl⟩
      · cases hlookup : self.peers.lookup infoHash with
        | none =>
          rw [hlookup] at hmem
          cases hmem
        | some old =>
          rw [hlookup] at hmem
          exact Or.inr ⟨old, htorrent ▸ hlookup, hmem⟩
    · rw [AList.lookup_insert_ne htorrent] at hlist
      exact Or.inr ⟨list, hlist, hpeer⟩

theorem holds_purge {self : PeerStore} {infoHash : NodeId} {addr : SocketAddr} {now : Nat}
    (h : (self.purge now).Holds infoHash addr) : self.Holds infoHash addr := by
  obtain ⟨list, hlist, haddr⟩ := h
  have hentry := AList.mem_lookup_iff.mp hlist
  obtain ⟨e, he, heq⟩ := List.mem_map.mp (List.mem_of_mem_filter hentry)
  cases heq
  refine ⟨e.2, AList.mem_lookup_iff.mpr he, ?_⟩
  exact (List.filter_sublist.map Prod.fst).subset haddr

end PeerStore

def toIpv6Mapped (ip : BitVec 32) : BitVec 128 := .ofNat 128 (0xffff * 2 ^ 32 + ip.toNat)

theorem canonical_mapped (ip : BitVec 32) (port : BitVec 16) :
    canonical (.v6 (toIpv6Mapped ip) port) = canonical (.v4 ip port) := by
  have hlt := ip.isLt
  have hnat : (toIpv6Mapped ip).toNat = 0xffff * 2 ^ 32 + ip.toNat := by
    rw [toIpv6Mapped, BitVec.toNat_ofNat, Nat.mod_eq_of_lt (by omega)]
  have hip : toIpv4Mapped (toIpv6Mapped ip) = some ip := by
    rw [toIpv4Mapped, if_pos (by omega), hnat]
    congr 1
    apply BitVec.eq_of_toNat_eq
    rw [BitVec.toNat_ofNat]
    omega
  rw [canonical, canonical, hip]

structure AnnouncePeer (src : SocketAddr) (msg : KrpcMessage) (args : QueryArgs) (infoHash : NodeId)
    (port : BitVec 16) : Prop where
  name : msg.q = some "announce_peer"
  body : msg.a = some args
  sender : args.id.length = 20
  torrent : NodeId.ofBytes args.infoHash = some infoHash
  port : DhtManager.announcedPort (canonical src) args = some port

theorem NodeId.length_of_ofBytes {bytes : List UInt8} {id : NodeId} (h : NodeId.ofBytes bytes = some id) :
    bytes.length = 20 := by
  unfold NodeId.ofBytes at h
  split at h
  · assumption
  · cases h

namespace DhtManager

variable (sha1 : List UInt8 → Digest)

def base (self : DhtManager) : ResponseArgs := ⟨self.localId.bytes, [], [], [], []⟩

@[simp] theorem noteSender_localId (self : DhtManager) (senderId : NodeId) (src : SocketAddr) :
    (self.noteSender senderId src).localId = self.localId := by
  unfold noteSender; split <;> rfl

@[simp] theorem noteSender_peerStore (self : DhtManager) (senderId : NodeId) (src : SocketAddr) :
    (self.noteSender senderId src).peerStore = self.peerStore := by
  unfold noteSender; split <;> rfl

@[simp] theorem noteSender_tokens (self : DhtManager) (senderId : NodeId) (src : SocketAddr) :
    (self.noteSender senderId src).tokens = self.tokens := by
  unfold noteSender; split <;> rfl

theorem handleAnnounce_cases (self : DhtManager) (src : SocketAddr) (args : QueryArgs)
    (tid : List UInt8) (base : ResponseArgs) (now : Nat) :
    (∃ reply, self.handleAnnounce sha1 src args tid base now = (self, reply) ∧ reply.y = "e") ∨
    ∃ infoHash port, NodeId.ofBytes args.infoHash = some infoHash ∧
      self.tokens.isValid sha1 args.token src.ip = true ∧ announcedPort src args = some port ∧
      self.handleAnnounce sha1 src args tid base now =
        ({ self with peerStore := self.peerStore.add infoHash (.new src.ip port) now },
          .response tid base) := by
  unfold handleAnnounce
  cases htorrent : NodeId.ofBytes args.infoHash with
  | none => exact Or.inl ⟨_, rfl, rfl⟩
  | some infoHash =>
    by_cases hvalid : self.tokens.isValid sha1 args.token src.ip = true
    · cases hport : announcedPort src args with
      | none => exact Or.inl ⟨.error tid 203 "Invalid port", by simp [hvalid], rfl⟩
      | some port => exact Or.inr ⟨infoHash, port, rfl, hvalid, rfl, by simp [hvalid]⟩
    · exact Or.inl ⟨.error tid 203 "Bad token", by simp [hvalid], rfl⟩

theorem handleQuery_other (self : DhtManager) (src : SocketAddr) {msg : KrpcMessage} (now : Nat)
    (h : msg.q ≠ some "announce_peer") :
    (self.handleQuery sha1 src msg now).1 = self ∨
      ∃ senderId, (self.handleQuery sha1 src msg now).1 = self.noteSender senderId (canonical src) := by
  rcases msg with ⟨a, q, r, t, y⟩
  rcases q with _ | name
  · exact Or.inl rfl
  rcases a with _ | args
  · exact Or.inl rfl
  cases hid : NodeId.ofBytes args.id with
  | none => simp [handleQuery, hid]
  | some senderId =>
    refine Or.inr ⟨senderId, ?_⟩
    simp only [handleQuery, hid]
    split
    · rfl
    · split <;> rfl
    · rfl
    · exact absurd rfl h
    · rfl

theorem handleQuery_announce (self : DhtManager) (src : SocketAddr) {msg : KrpcMessage} (now : Nat)
    {args : QueryArgs} {senderId : NodeId} (hname : msg.q = some "announce_peer")
    (hbody : msg.a = some args) (hid : NodeId.ofBytes args.id = some senderId) :
    let noted := self.noteSender senderId (canonical src)
    let r := noted.handleAnnounce sha1 (canonical src) args msg.t self.base now
    self.handleQuery sha1 src msg now = (r.1, some r.2) := by
  simp [handleQuery, base, hname, hbody, hid]

theorem handleQuery_announce_cases (self : DhtManager) (src : SocketAddr) {msg : KrpcMessage}
    (now : Nat) (hname : msg.q = some "announce_peer") :
    let r := self.handleQuery sha1 src msg now
    (r.1.tokens = self.tokens ∧ r.1.peerStore = self.peerStore ∧ ∃ reply, r.2 = some reply ∧
      reply.y = "e") ∨
    ∃ args infoHash port, AnnouncePeer src msg args infoHash port ∧
      self.tokens.isValid sha1 args.token (canonical src).ip = true ∧
      r.1.tokens = self.tokens ∧
      r.1.peerStore = self.peerStore.add infoHash (.new (canonical src).ip port) now ∧
      r.2 = some (.response msg.t self.base) := by
  intro r
  cases hbody : msg.a with
  | none =>
    have hr : r = (self, some (.error msg.t 203 "Protocol Error")) := by
      simp [r, handleQuery, hname, hbody]
    exact Or.inl (hr ▸ ⟨rfl, rfl, _, rfl, rfl⟩)
  | some args =>
    cases hid : NodeId.ofBytes args.id with
    | none =>
      have hr : r = (self, some (.error msg.t 203 "Invalid node id")) := by
        simp [r, handleQuery, hname, hbody, hid]
      exact Or.inl (hr ▸ ⟨rfl, rfl, _, rfl, rfl⟩)
    | some senderId =>
      have hr := handleQuery_announce sha1 self src now hname hbody hid
      rcases (self.noteSender senderId (canonical src)).handleAnnounce_cases sha1 (canonical src) args
          msg.t self.base now with ⟨reply, heq, he⟩ | ⟨infoHash, port, htorrent, hvalid, hport, heq⟩
      · refine Or.inl ?_
        simp only [r, hr, heq, noteSender_tokens, noteSender_peerStore]
        exact ⟨trivial, trivial, reply, rfl, he⟩
      · refine Or.inr ⟨args, infoHash, port, ?_, ?_, ?_⟩
        · exact ⟨hname, hbody, NodeId.length_of_ofBytes hid, htorrent, hport⟩
        · rwa [noteSender_tokens] at hvalid
        · simp only [r, hr, heq, noteSender_tokens, noteSender_peerStore, and_self]

theorem handleQuery_accepted {self : DhtManager} {src : SocketAddr} {msg : KrpcMessage} {now : Nat}
    {args : QueryArgs} {infoHash : NodeId} {port : BitVec 16}
    (h : AnnouncePeer src msg args infoHash port)
    (hvalid : self.tokens.isValid sha1 args.token (canonical src).ip = true) :
    (self.handleQuery sha1 src msg now).2 = some (.response msg.t self.base) ∧
    (self.handleQuery sha1 src msg now).1.peerStore =
      self.peerStore.add infoHash (.new (canonical src).ip port) now := by
  have hid : NodeId.ofBytes args.id = some ⟨args.id, h.sender⟩ := dif_pos h.sender
  rw [handleQuery_announce sha1 self src now h.name h.body hid]
  simp [handleAnnounce, h.torrent, hvalid, h.port]

theorem handleQuery_tokens (self : DhtManager) (src : SocketAddr) (msg : KrpcMessage) (now : Nat) :
    (self.handleQuery sha1 src msg now).1.tokens = self.tokens := by
  by_cases hname : msg.q = some "announce_peer"
  · rcases self.handleQuery_announce_cases sha1 src now hname with
      ⟨htokens, -⟩ | ⟨-, -, -, -, -, htokens, -⟩
    · exact htokens
    · exact htokens
  · rcases handleQuery_other sha1 self src now hname with
      heq | ⟨senderId, heq⟩
    · rw [heq]
    · rw [heq, noteSender_tokens]

theorem handleQuery_getPeers {self : DhtManager} {src : SocketAddr} {msg : KrpcMessage} {now : Nat}
    {reply : KrpcReply} {r : ResponseArgs} (hname : msg.q = some "get_peers")
    (hreply : (self.handleQuery sha1 src msg now).2 = some reply) (hr : reply.r = some r) :
    r.token = Tokens.make sha1 self.tokens.current (canonical src).ip := by
  rcases msg with ⟨a, q, _, t, y⟩
  cases hname
  rcases a with _ | args
  · cases hreply
    cases hr
  cases hid : NodeId.ofBytes args.id with
  | none =>
    simp only [handleQuery, hid, Option.some.injEq] at hreply
    subst hreply
    cases hr
  | some senderId =>
    simp only [handleQuery, hid, Option.some.injEq, handleGetPeers] at hreply
    subst hreply
    split at hr
    · cases hr
    · cases hr
      rw [Tokens.issue, noteSender_tokens]

end DhtManager
end Tortor.Net
