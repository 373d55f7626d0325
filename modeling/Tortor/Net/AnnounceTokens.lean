import Tortor.Lib.Run
import Tortor.Net.ActorLaws

/-! Every run of the node, with the tokens it gives out kept by the secret they are made of. -/

namespace Tortor.Net

open Tortor.Core (Digest IpAddr SocketAddr)
open Tortor.Lib

structure Generation where
  secret : Secret
  given : List (IpAddr × List UInt8)

structure WatchedManager where
  manager : DhtManager
  given : List (IpAddr × List UInt8)
  past : List Generation
  /-- The `previous` of the start, which was never the current secret. -/
  spare : Secret

def tokenGiven (sha1 : List UInt8 → Digest) (manager : DhtManager) (src : SocketAddr)
    (msg : KrpcMessage) (now : Nat) : Option (IpAddr × List UInt8) :=
  if msg.q = some "get_peers" then
    (manager.handleQuery sha1 src msg now).2.bind fun reply =>
      reply.r.map fun r => ((canonical src).ip, r.token)
  else none

namespace WatchedManager

def new (manager : DhtManager) : WatchedManager := ⟨manager, [], [], manager.tokens.previous⟩

def generations (s : WatchedManager) : List Generation :=
  ⟨s.manager.tokens.current, s.given⟩ :: s.past

def secrets (s : WatchedManager) : List Secret := s.generations.map Generation.secret ++ [s.spare]

def step (sha1 : List UInt8 → Digest) (s : WatchedManager) (input : ManagerInput) :
    WatchedManager :=
  let manager := s.manager.step sha1 input
  match input with
  | .query src msg now =>
    { s with manager, given := (tokenGiven sha1 s.manager src msg now).toList ++ s.given }
  | .insertNode _ => { s with manager }
  | .maintenance now _ =>
    if s.manager.tokens.due now then { s with manager, given := [], past := s.generations }
    else { s with manager }

end WatchedManager

/-- The first eight bytes of SHA-1 tell the secrets and the senders of a run apart. -/
def Distinguishes (sha1 : List UInt8 → Digest) (secrets : List Secret) (senders : List IpAddr) :
    Prop :=
  ∀ a ∈ secrets, ∀ b ∈ secrets, ∀ x ∈ senders, ∀ y ∈ senders,
    Tokens.make sha1 a x = Tokens.make sha1 b y → a = b ∧ x = y

def Drawn (secrets : List Secret) (senders : List IpAddr) (s : WatchedManager) :
    ManagerInput → Prop
  | .query src _ _ => (canonical src).ip ∈ senders
  | .insertNode _ => True
  | .maintenance now fresh => s.manager.tokens.due now → fresh ∈ secrets ∧ fresh ∉ s.secrets

instance (secrets : List Secret) (senders : List IpAddr) (s : WatchedManager)
    (input : ManagerInput) : Decidable (Drawn secrets senders s input) := by
  unfold Drawn
  split <;> infer_instance

variable {sha1 : List UInt8 → Digest} {secrets : List Secret} {senders : List IpAddr}

theorem tokenGiven_eq {manager : DhtManager} {src : SocketAddr} {msg : KrpcMessage} {now : Nat}
    {ip : IpAddr} {token : List UInt8} (h : tokenGiven sha1 manager src msg now = some (ip, token)) :
    ip = (canonical src).ip ∧ token = Tokens.make sha1 manager.tokens.current ip := by
  unfold tokenGiven at h
  split at h
  · rename_i hname
    obtain ⟨reply, hreply, hbody⟩ := Option.bind_eq_some_iff.mp h
    obtain ⟨r, hr, heq⟩ := Option.map_eq_some_iff.mp hbody
    cases heq
    exact ⟨rfl, DhtManager.handleQuery_getPeers sha1 hname hreply hr⟩
  · cases h

structure Faithful (sha1 : List UInt8 → Digest) (secrets : List Secret) (senders : List IpAddr)
    (s : WatchedManager) : Prop where
  previous : s.manager.tokens.previous = (s.past.head?.map Generation.secret).getD s.spare
  drawn : ∀ secret ∈ s.secrets, secret ∈ secrets
  fresh : s.secrets.Nodup
  given : ∀ g ∈ s.generations, ∀ ip token, (ip, token) ∈ g.given →
    ip ∈ senders ∧ token = Tokens.make sha1 g.secret ip

namespace Faithful

variable {s : WatchedManager}

theorem new {manager : DhtManager} (hcurrent : manager.tokens.current ∈ secrets)
    (hprevious : manager.tokens.previous ∈ secrets)
    (hne : manager.tokens.current ≠ manager.tokens.previous) :
    Faithful sha1 secrets senders (.new manager) where
  previous := rfl
  drawn := by
    intro secret hsecret
    rcases List.mem_cons.mp hsecret with rfl | hspare
    · exact hcurrent
    · rw [List.mem_singleton.mp hspare]
      exact hprevious
  fresh := by simpa [WatchedManager.secrets, WatchedManager.generations, WatchedManager.new] using hne
  given := by simp [WatchedManager.generations, WatchedManager.new]

theorem sameTokens (h : Faithful sha1 secrets senders s) {manager : DhtManager}
    (htokens : manager.tokens = s.manager.tokens) :
    Faithful sha1 secrets senders { s with manager } := by
  have hgen : WatchedManager.generations { s with manager } = s.generations := by
    simp [WatchedManager.generations, htokens]
  have hsecrets : WatchedManager.secrets { s with manager } = s.secrets := by
    simp [WatchedManager.secrets, hgen]
  refine ⟨?_, ?_, ?_, ?_⟩
  · rw [htokens]
    exact h.previous
  · rw [hsecrets]
    exact h.drawn
  · rw [hsecrets]
    exact h.fresh
  · rw [hgen]
    exact h.given

theorem gave (h : Faithful sha1 secrets senders s) {ip : IpAddr} {token : List UInt8}
    (hip : ip ∈ senders) (htoken : token = Tokens.make sha1 s.manager.tokens.current ip) :
    Faithful sha1 secrets senders { s with given := (ip, token) :: s.given } where
  previous := h.previous
  drawn := h.drawn
  fresh := h.fresh
  given := by
    intro g hg x t hgiven
    rcases List.mem_cons.mp hg with rfl | hpast
    · rcases List.mem_cons.mp hgiven with heq | hold
      · cases heq
        exact ⟨hip, htoken⟩
      · exact h.given _ List.mem_cons_self x t hold
    · exact h.given g (List.mem_cons_of_mem _ hpast) x t hgiven

theorem rotated (h : Faithful sha1 secrets senders s) {manager : DhtManager} {fresh : Secret}
    (hcurrent : manager.tokens.current = fresh)
    (hprevious : manager.tokens.previous = s.manager.tokens.current) (hmem : fresh ∈ secrets)
    (hfresh : fresh ∉ s.secrets) :
    Faithful sha1 secrets senders { s with manager, given := [], past := s.generations } := by
  have hsecrets : WatchedManager.secrets { s with manager, given := [], past := s.generations } =
      fresh :: s.secrets := by
    simp [WatchedManager.secrets, WatchedManager.generations, hcurrent]
  refine ⟨hprevious, ?_, ?_, ?_⟩
  · rw [hsecrets]
    intro secret hsecret
    rcases List.mem_cons.mp hsecret with rfl | hold
    · exact hmem
    · exact h.drawn secret hold
  · rw [hsecrets]
    exact List.nodup_cons.mpr ⟨hfresh, h.fresh⟩
  · intro g hg ip token hgiven
    rcases List.mem_cons.mp hg with rfl | hpast
    · cases hgiven
    · exact h.given g hpast ip token hgiven

end Faithful

theorem faithful_step {s : WatchedManager} {input : ManagerInput}
    (h : Faithful sha1 secrets senders s) (hd : Drawn secrets senders s input) :
    Faithful sha1 secrets senders (s.step sha1 input) := by
  cases input with
  | query src msg now =>
    have hkept := h.sameTokens (DhtManager.handleQuery_tokens sha1 s.manager src msg now)
    cases hgiven : tokenGiven sha1 s.manager src msg now with
    | none =>
      simp only [WatchedManager.step, hgiven]
      exact hkept
    | some pair =>
      obtain ⟨ip, token⟩ := pair
      obtain ⟨rfl, htoken⟩ := tokenGiven_eq hgiven
      simp only [WatchedManager.step, hgiven]
      refine hkept.gave hd ?_
      rw [htoken]
      exact congrArg (fun t : Tokens => Tokens.make sha1 t.current _)
        (DhtManager.handleQuery_tokens sha1 s.manager src msg now).symm
  | insertNode contact => exact h.sameTokens rfl
  | maintenance now fresh =>
    by_cases hdue : s.manager.tokens.due now
    · obtain ⟨hmem, hfresh⟩ := hd hdue
      simp only [WatchedManager.step, DhtManager.step, Tokens.rotateIfDue, if_pos hdue]
      exact h.rotated rfl rfl hmem hfresh
    · simp only [WatchedManager.step, DhtManager.step, Tokens.rotateIfDue, if_neg hdue]
      exact h.sameTokens rfl

/-- Made for this ip of the current secret, of the one before it, or of the spare one that stands
in for it until the first rotation; given to nobody else, and not two rotations ago. -/
structure Vouched (sha1 : List UInt8 → Digest) (s : WatchedManager) (ip : IpAddr)
    (token : List UInt8) : Prop where
  made : token = Tokens.make sha1 s.manager.tokens.current ip ∨
    (∃ g, s.past.head? = some g ∧ token = Tokens.make sha1 g.secret ip) ∨
    (s.past = [] ∧ token = Tokens.make sha1 s.spare ip)
  bound : ∀ g ∈ s.generations, ∀ other, (other, token) ∈ g.given → other = ip
  recent : ∀ g ∈ s.generations.drop 2, ∀ other, (other, token) ∉ g.given

/-- A token that is valid is made of one of the two latest secrets. -/
theorem Faithful.made {s : WatchedManager} (h : Faithful sha1 secrets senders s) {ip : IpAddr}
    {token : List UInt8} (hvalid : s.manager.tokens.isValid sha1 token ip = true) :
    token = Tokens.make sha1 s.manager.tokens.current ip ∨
    (∃ g, s.past.head? = some g ∧ token = Tokens.make sha1 g.secret ip) ∨
    (s.past = [] ∧ token = Tokens.make sha1 s.spare ip) := by
  rw [Tokens.isValid, Bool.or_eq_true, beq_iff_eq, beq_iff_eq, h.previous] at hvalid
  rcases hvalid with hcurrent | hprevious
  · exact Or.inl hcurrent
  · cases hpast : s.past with
    | nil =>
      rw [hpast] at hprevious
      exact Or.inr (Or.inr ⟨rfl, hprevious⟩)
    | cons g rest =>
      rw [hpast] at hprevious
      exact Or.inr (Or.inl ⟨g, rfl, hprevious⟩)

theorem Faithful.valid {s : WatchedManager} (h : Faithful sha1 secrets senders s) {g : Generation}
    (hg : g ∈ s.generations.take 2) {ip : IpAddr} {token : List UInt8}
    (hgiven : (ip, token) ∈ g.given) : s.manager.tokens.isValid sha1 token ip = true := by
  have hmake := (h.given g (List.mem_of_mem_take hg) ip token hgiven).2
  rw [Tokens.isValid, Bool.or_eq_true, beq_iff_eq, beq_iff_eq, h.previous, hmake]
  rcases List.mem_cons.mp hg with rfl | hprevious
  · exact Or.inl rfl
  · cases hpast : s.past with
    | nil =>
      rw [hpast] at hprevious
      cases hprevious
    | cons latest rest =>
      rw [hpast] at hprevious
      rw [List.mem_singleton.mp hprevious]
      exact Or.inr rfl

theorem Faithful.vouched {s : WatchedManager} (h : Faithful sha1 secrets senders s)
    (hinj : Distinguishes sha1 secrets senders) {ip : IpAddr} (hip : ip ∈ senders)
    {token : List UInt8} (hvalid : s.manager.tokens.isValid sha1 token ip = true) :
    Vouched sha1 s ip token := by
  have hmade := h.made hvalid
  -- One of the two latest secrets made it, and whatever else it is made of is the same.
  obtain ⟨secret, htwo, htoken⟩ :
      ∃ secret ∈ s.secrets.take 2, token = Tokens.make sha1 secret ip := by
    rcases hmade with hcurrent | ⟨g, hg, hprevious⟩ | ⟨hpast, hspare⟩
    · exact ⟨_, List.mem_cons_self, hcurrent⟩
    · obtain ⟨rest, hrest⟩ := List.head?_eq_some_iff.mp hg
      exact ⟨_, by simp [WatchedManager.secrets, WatchedManager.generations, hrest], hprevious⟩
    · exact ⟨_, by simp [WatchedManager.secrets, WatchedManager.generations, hpast], hspare⟩
  have hgen (g : Generation) (hg : g ∈ s.generations) : g.secret ∈ s.secrets :=
    List.mem_append_left _ (List.mem_map_of_mem hg)
  have hsame (g : Generation) (hg : g ∈ s.generations) (other : IpAddr)
      (hgiven : (other, token) ∈ g.given) : g.secret = secret ∧ other = ip := by
    obtain ⟨hother, hmake⟩ := h.given g hg other token hgiven
    exact hinj _ (h.drawn _ (hgen g hg)) _ (h.drawn _ (List.mem_of_mem_take htwo)) _ hother _ hip
      (hmake.symm.trans htoken)
  refine ⟨hmade, fun g hg other hgiven => (hsame g hg other hgiven).2, ?_⟩
  intro g hg other hgiven
  have hold : g.secret ∈ s.secrets.drop 2 := by
    have hdrop : s.secrets.drop 2 =
        (s.generations.drop 2).map Generation.secret ++ [s.spare].drop (2 - s.generations.length) := by
      simp [WatchedManager.secrets, List.drop_append, List.map_drop]
    rw [hdrop]
    exact List.mem_append_left _ (List.mem_map_of_mem hg)
  rw [(hsame g (List.mem_of_mem_drop hg) other hgiven).1] at hold
  exact List.disjoint_take_drop h.fresh (Nat.le_refl 2) htwo hold

/-- What the tokens do for the store, whatever the next input is. -/
structure Protected (sha1 : List UInt8 → Digest) (secrets : List Secret) (senders : List IpAddr)
    (s : WatchedManager) : Prop where
  given : ∀ src msg now ip token, tokenGiven sha1 s.manager src msg now = some (ip, token) →
    ip = (canonical src).ip ∧ token = Tokens.make sha1 s.manager.tokens.current ip
  entered : ∀ input infoHash addr, Drawn secrets senders s input →
    ¬ s.manager.peerStore.Holds infoHash addr →
    (s.manager.step sha1 input).peerStore.Holds infoHash addr →
    ∃ src msg now args, input = .query src msg now ∧ AnnouncePeer src msg args infoHash addr.port ∧
      addr.ip = (canonical src).ip ∧ Vouched sha1 s addr.ip args.token
  accepted : ∀ src msg now args infoHash port, AnnouncePeer src msg args infoHash port →
    ∀ g ∈ s.generations.take 2, ((canonical src).ip, args.token) ∈ g.given →
      (s.manager.handleQuery sha1 src msg now).2 = some (.response msg.t s.manager.base) ∧
      (s.manager.handleQuery sha1 src msg now).1.peerStore =
        s.manager.peerStore.add infoHash (.new (canonical src).ip port) now
  mapped : ∀ ip port msg now, s.manager.handleQuery sha1 (.v6 (toIpv6Mapped ip) port) msg now =
    s.manager.handleQuery sha1 (.v4 ip port) msg now
  rejected : ∀ src msg now reply, msg.q = some "announce_peer" →
    (s.manager.handleQuery sha1 src msg now).2 = some reply → reply.y ≠ "r" →
    (s.manager.handleQuery sha1 src msg now).1.peerStore = s.manager.peerStore

theorem Faithful.protected {s : WatchedManager} (h : Faithful sha1 secrets senders s)
    (hinj : Distinguishes sha1 secrets senders) : Protected sha1 secrets senders s where
  given := fun _ _ _ _ _ hgiven => tokenGiven_eq hgiven
  entered := by
    intro input infoHash addr hd hbefore hafter
    cases input with
    | query src msg now =>
      by_cases hname : msg.q = some "announce_peer"
      · rcases s.manager.handleQuery_announce_cases sha1 src now hname with
          ⟨-, hstore, -⟩ | ⟨args, torrent, port, hannounce, hvalid, -, hstore, -⟩
        · rw [DhtManager.step, hstore] at hafter
          exact absurd hafter hbefore
        · rw [DhtManager.step, hstore] at hafter
          rcases PeerStore.holds_add hafter with ⟨rfl, rfl⟩ | hold
          · refine ⟨src, msg, now, args, rfl, ?_, SocketAddr.ip_new _ _, ?_⟩
            · rw [SocketAddr.port_new]
              exact hannounce
            · rw [SocketAddr.ip_new]
              exact h.vouched hinj hd hvalid
          · exact absurd hold hbefore
      · rcases s.manager.handleQuery_other sha1 src now hname with heq | ⟨senderId, heq⟩
        · rw [DhtManager.step, heq] at hafter
          exact absurd hafter hbefore
        · rw [DhtManager.step, heq, DhtManager.noteSender_peerStore] at hafter
          exact absurd hafter hbefore
    | insertNode contact => exact absurd hafter hbefore
    | maintenance now fresh => exact absurd (PeerStore.holds_purge hafter) hbefore
  accepted := by
    intro src msg now args infoHash port hannounce g hg hgiven
    exact DhtManager.handleQuery_accepted sha1 hannounce (h.valid hg hgiven)
  mapped := by
    intro ip port msg now
    unfold DhtManager.handleQuery
    rw [canonical_mapped]
  rejected := by
    intro src msg now reply hname hreply hr
    rcases s.manager.handleQuery_announce_cases sha1 src now hname with
      ⟨-, hstore, -⟩ | ⟨args, infoHash, port, -, -, -, -, haccepted⟩
    · exact hstore
    · rw [haccepted] at hreply
      cases hreply
      exact absurd rfl hr

/-- In every run whose secrets are fresh the tokens protect the store. -/
theorem announce_tokens_protect (hinj : Distinguishes sha1 secrets senders) {manager : DhtManager}
    (hcurrent : manager.tokens.current ∈ secrets) (hprevious : manager.tokens.previous ∈ secrets)
    (hne : manager.tokens.current ≠ manager.tokens.previous) {inputs : List ManagerInput}
    (hrun : Along (WatchedManager.step sha1) (Drawn secrets senders) (.new manager) inputs) :
    Protected sha1 secrets senders (exec (WatchedManager.step sha1) (.new manager) inputs) := by
  have hstart : Faithful sha1 secrets senders (.new manager) := .new hcurrent hprevious hne
  have hend := exec_invariant_along (fun _ _ => faithful_step) hrun hstart
  exact hend.protected hinj

def Secret.from (first : Nat) : Secret where
  bytes := (List.range' first 16).map UInt8.ofNat
  size := by rw [List.length_map, List.length_range']

def sampleSha1 (bytes : List UInt8) : Digest :=
  if bytes = (Secret.from 0).bytes ++ [10, 0, 0, 1] then
    ⟨[53, 211, 136, 75, 160, 232, 180, 41, 214, 36, 59, 66, 81, 236, 196, 119, 199, 204, 92, 218],
      rfl⟩
  else if bytes = (Secret.from 0).bytes ++ [10, 0, 0, 2] then
    ⟨[166, 183, 146, 104, 35, 134, 94, 136, 94, 174, 129, 247, 106, 15, 200, 154, 182, 246, 133, 219],
      rfl⟩
  else if bytes = (Secret.from 16).bytes ++ [10, 0, 0, 1] then
    ⟨[5, 143, 42, 136, 140, 11, 82, 243, 105, 72, 251, 22, 129, 89, 46, 154, 228, 140, 91, 188], rfl⟩
  else if bytes = (Secret.from 16).bytes ++ [10, 0, 0, 2] then
    ⟨[156, 127, 248, 83, 33, 15, 251, 19, 61, 255, 168, 32, 161, 20, 16, 251, 180, 107, 255, 23],
      rfl⟩
  else if bytes = (Secret.from 32).bytes ++ [10, 0, 0, 1] then
    ⟨[222, 144, 36, 83, 181, 226, 51, 19, 82, 44, 69, 17, 55, 150, 20, 183, 240, 165, 145, 114], rfl⟩
  else
    ⟨[97, 43, 169, 175, 180, 83, 72, 235, 14, 119, 128, 229, 117, 39, 115, 96, 217, 87, 158, 90], rfl⟩

def sampleSecrets : List Secret := [.from 0, .from 16, .from 32]

def sampleSenders : List IpAddr := [.v4 0x0a000001, .v4 0x0a000002]

def sampleNode (byte : UInt8) : NodeId := ⟨List.replicate 20 byte, List.length_replicate⟩

def sampleManager : DhtManager :=
  .new (sampleNode 1) (.new (sampleNode 1)) (.from 0) (.from 16) 0

def sampleQuery (name : String) (token : List UInt8) : KrpcMessage where
  a := some
    { id := (sampleNode 7).bytes
      impliedPort := none
      infoHash := (sampleNode 5).bytes
      port := some 6881
      target := []
      token }
  q := some name
  r := none
  t := [0]
  y := "q"

def sampleRun : List ManagerInput :=
  [.query (.v6 (toIpv6Mapped 0x0a000001) 6881) (sampleQuery "get_peers" []) 1000,
    .maintenance 300000 (.from 32),
    .query (.v4 0x0a000002 6881) (sampleQuery "get_peers" []) 301000]

theorem distinguishes_sampleSha1 : Distinguishes sampleSha1 sampleSecrets sampleSenders := by
  unfold Distinguishes
  decide +kernel

theorem announce_tokens_protect_sample :
    Protected sampleSha1 sampleSecrets sampleSenders
      (exec (WatchedManager.step sampleSha1) (.new sampleManager) sampleRun) :=
  announce_tokens_protect distinguishes_sampleSha1 (by decide) (by decide) (by decide)
    (by decide +kernel)

/-- Before the first rotation a token of the spare secret opens the store, which no reply gives. -/
theorem spare_token_accepted :
    let manager := sampleManager
    let token := Tokens.make sampleSha1 manager.tokens.previous (.v4 0x0a000001)
    let src : SocketAddr := .v4 0x0a000001 6881
    let r := manager.handleQuery sampleSha1 src (sampleQuery "announce_peer" token) 1000
    ¬ manager.peerStore.Holds (sampleNode 5) src ∧ r.1.peerStore.Holds (sampleNode 5) src ∧
      token ≠ Tokens.make sampleSha1 manager.tokens.current (.v4 0x0a000001) ∧
      (WatchedManager.new manager).past = [] ∧ sampleSecrets.Nodup ∧
      Distinguishes sampleSha1 sampleSecrets sampleSenders := by
  refine ⟨?_, ⟨[(.v4 0x0a000001 6881, 1000)], ?_, List.mem_cons_self⟩, ?_, rfl, by decide,
    distinguishes_sampleSha1⟩
  · rintro ⟨list, hlist, -⟩
    cases hlist
  · decide +kernel
  · decide +kernel

end Tortor.Net
