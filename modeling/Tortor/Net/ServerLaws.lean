import Tortor.Lib.Run
import Tortor.Lib.Table
import Tortor.Net.Server

/-! Who may answer a query of the DHT server. -/

namespace Tortor.Net.DhtServer

open Tortor.Core (SocketAddr checkBencodeDepth)
open Tortor.Lib

variable {codec : KrpcCodec} {s t : DhtServer} {input : ServerInput}

structure Matches (codec : KrpcCodec) (s : DhtServer) (data : List UInt8) (src : SocketAddr)
    (pending : Pending) (msg : KrpcMessage) : Prop where
  decoded : codec.decode (data.take RECV_BUFFER) = some msg
  kind : msg.y = "r" ∨ msg.y = "e"
  waiting : s.transactions.lookup msg.t = some pending
  asked : pending.target = canonical src

inductive Stepped (codec : KrpcCodec) (s : DhtServer) (input : ServerInput) (t : DhtServer) : Prop
  | same (table : t.transactions = s.transactions) (queries : t.queries = s.queries)
      (answers : t.answers = s.answers)
  | refused (query : ServerQuery) (error : ServerError)
      (table : t.transactions = s.transactions) (queries : t.queries = s.queries ++ [query])
      (answers : t.answers = s.answers ++ [⟨s.queries.length, .error error⟩])
  | dropped (query : ServerQuery) (table : t.transactions = s.transactions)
      (queries : t.queries = s.queries ++ [query]) (answers : t.answers = s.answers)
  | waits (target : SocketAddr) (tid : List UInt8) (now : Nat)
      (room : s.transactions.entries.length < MAX_PENDING)
      (table : t.transactions = s.transactions.insert tid ⟨canonical target, s.queries.length, now⟩)
      (queries : t.queries = s.queries ++ [⟨target, some tid⟩]) (answers : t.answers = s.answers)
  | answered (data : List UInt8) (src : SocketAddr) (room : Bool) (pending : Pending)
      (msg : KrpcMessage) (datagram : input = .datagram data src room)
      (fits : Matches codec s data src pending msg)
      (table : t.transactions = s.transactions.erase msg.t) (queries : t.queries = s.queries)
      (answers : t.answers = s.answers ++ [⟨pending.reply, .ok msg⟩])
  | expired (keep : Pending → Bool) (table : t.transactions = retain keep s.transactions)
      (queries : t.queries = s.queries) (answers : t.answers = s.answers)

theorem stepped_sendQuery (s : DhtServer) (target : SocketAddr) (msg : KrpcMessage) (sent : Bool)
    (now : Nat) : Stepped codec s input (s.sendQuery codec target msg sent now) := by
  unfold sendQuery
  split
  case isTrue => exact .refused ⟨target, none⟩ _ rfl rfl rfl
  case isFalse =>
    split
    case isTrue => exact .refused ⟨target, none⟩ _ rfl rfl rfl
    case isFalse hroom =>
      dsimp only
      split
      case h_1 => exact .dropped _ rfl rfl rfl
      case h_2 =>
        cases sent with
        | true => exact .waits target _ now (Nat.lt_of_not_le hroom) rfl rfl rfl
        | false => exact .refused _ _ rfl rfl rfl

theorem stepped_datagram (s : DhtServer) (data : List UInt8) (src : SocketAddr) (room : Bool) :
    Stepped codec s (.datagram data src room)
      (s.handleDatagram codec (data.take RECV_BUFFER) (canonical src) room) := by
  unfold handleDatagram
  split
  case h_2 => exact .same rfl rfl rfl
  case h_1 msg _ hdecode =>
    split
    case isTrue hkind =>
      split
      case h_1 => exact .same rfl rfl rfl
      case h_2 pending hwaiting =>
        split
        case isTrue hasked =>
          exact .answered data src room pending msg rfl ⟨hdecode, hkind, hwaiting, hasked⟩ rfl rfl rfl
        case isFalse => exact .same rfl rfl rfl
    case isFalse => split <;> exact .same rfl rfl rfl

theorem stepped (codec : KrpcCodec) (s : DhtServer) (input : ServerInput) :
    Stepped codec s input (s.step codec input) := by
  unfold step
  split
  · exact .same rfl rfl rfl
  · cases input with
    | sendQuery target msg sent now => exact stepped_sendQuery s target msg sent now
    | sendReply target msg sent =>
      dsimp only [sendReply]
      split
      · exact .same rfl rfl rfl
      · split <;> exact .same rfl rfl rfl
    | closed => exact .same rfl rfl rfl
    | datagram data src room => exact stepped_datagram s data src room
    | recvError => exact .same rfl rfl rfl
    | cleanup now => exact .expired (fun p => decide (now - p.sent < TRANSACTION_TTL)) rfl rfl rfl

/-- Whoever waits was asked, under the id he is filed under, and was not answered yet. -/
structure Sound (s : DhtServer) : Prop where
  asked : ∀ tid pending, s.transactions.lookup tid = some pending →
    ∃ query, s.queries[pending.reply]? = some query ∧ query.tid = some tid ∧
      pending.target = canonical query.target
  unanswered : ∀ tid pending, s.transactions.lookup tid = some pending →
    pending.reply ∉ s.answers.map (·.reply)
  known : ∀ reply ∈ s.answers.map (·.reply), reply < s.queries.length
  once : (s.answers.map (·.reply)).Nodup
  bounded : s.transactions.entries.length ≤ MAX_PENDING

theorem lookup_retain {keep : Pending → Bool} {table : AList fun _ : List UInt8 => Pending}
    {tid : List UInt8} {pending : Pending} (h : (retain keep table).lookup tid = some pending) :
    table.lookup tid = some pending := by
  rw [← Option.mem_def, AList.mem_lookup_iff] at h ⊢
  exact List.mem_of_mem_filter h

theorem nodup_replies {answers : List Answer} {a : Answer} (h : (answers.map (·.reply)).Nodup)
    (ha : a.reply ∉ answers.map (·.reply)) : ((answers ++ [a]).map (·.reply)).Nodup := by
  rw [List.map_append, List.map_singleton, ← List.concat_eq_append]
  exact h.concat ha

theorem mem_replies {answers : List Answer} {a : Answer} {reply : Nat} :
    reply ∈ (answers ++ [a]).map (·.reply) ↔ reply ∈ answers.map (·.reply) ∨ reply = a.reply := by
  rw [List.map_append, List.mem_append, List.map_singleton, List.mem_singleton]

namespace Sound

theorem start (dualStack : Bool) (nextTid : UInt32) : Sound (new dualStack nextTid) where
  asked tid pending h := by cases h
  unanswered tid pending h := by cases h
  known reply h := by cases h
  once := List.nodup_nil
  bounded := Nat.zero_le _

theorem asked_append (h : s.Sound) {tid : List UInt8} {pending : Pending} (query : ServerQuery)
    (hwait : s.transactions.lookup tid = some pending) :
    ∃ q, (s.queries ++ [query])[pending.reply]? = some q ∧ q.tid = some tid ∧
      pending.target = canonical q.target := by
  obtain ⟨q, hq, hrest⟩ := h.asked tid pending hwait
  exact ⟨q, List.getElem?_append_left (List.getElem?_eq_some_iff.mp hq).1 ▸ hq, hrest⟩

theorem reply_lt (h : s.Sound) {tid : List UInt8} {pending : Pending}
    (hwait : s.transactions.lookup tid = some pending) : pending.reply < s.queries.length := by
  obtain ⟨query, hquery, -⟩ := h.asked tid pending hwait
  exact (List.getElem?_eq_some_iff.mp hquery).1

theorem tid_unique (h : s.Sound) {tid other : List UInt8} {p q : Pending}
    (hp : s.transactions.lookup tid = some p) (hq : s.transactions.lookup other = some q)
    (hreply : p.reply = q.reply) : tid = other := by
  obtain ⟨query, hquery, htid, -⟩ := h.asked tid p hp
  obtain ⟨query', hquery', htid', -⟩ := h.asked other q hq
  rw [← hreply, hquery, Option.some.injEq] at hquery'
  rw [← hquery', htid, Option.some.injEq] at htid'
  exact htid'

theorem stepped (h : s.Sound) (hstep : Stepped codec s input t) : t.Sound := by
  have hfresh : s.queries.length ∉ s.answers.map (·.reply) := fun hin =>
    Nat.lt_irrefl _ (h.known _ hin)
  cases hstep with
  | same table queries answers =>
    exact ⟨queries ▸ table ▸ h.asked, answers ▸ table ▸ h.unanswered, queries ▸ answers ▸ h.known,
      answers ▸ h.once, table ▸ h.bounded⟩
  | refused query error table queries answers =>
    refine ⟨fun tid p hp => ?_, fun tid p hp => ?_, fun reply hr => ?_, ?_, table ▸ h.bounded⟩
    · rw [table] at hp
      rw [queries]
      exact h.asked_append query hp
    · rw [table] at hp
      rw [answers, mem_replies, not_or]
      exact ⟨h.unanswered tid p hp, Nat.ne_of_lt (h.reply_lt hp)⟩
    · rw [answers, mem_replies] at hr
      rw [queries, List.length_append, List.length_singleton]
      rcases hr with hold | rfl
      · exact Nat.lt_succ_of_lt (h.known reply hold)
      · exact Nat.lt_succ_self _
    · rw [answers]
      exact nodup_replies h.once hfresh
  | dropped query table queries answers =>
    refine ⟨fun tid p hp => ?_, answers ▸ table ▸ h.unanswered, fun reply hr => ?_, answers ▸ h.once,
      table ▸ h.bounded⟩
    · rw [table] at hp
      rw [queries]
      exact h.asked_append query hp
    · rw [queries, List.length_append]
      exact Nat.lt_add_right _ (h.known reply (answers ▸ hr))
  | waits target tid now room table queries answers =>
    refine ⟨fun other p hp => ?_, fun other p hp => ?_, fun reply hr => ?_, answers ▸ h.once, ?_⟩
    · rw [queries]
      by_cases hother : other = tid
      · rw [table, hother, AList.lookup_insert, Option.some.injEq] at hp
        rw [← hp, hother]
        exact ⟨_, List.getElem?_concat_length, rfl, rfl⟩
      · rw [table, AList.lookup_insert_ne hother] at hp
        exact h.asked_append _ hp
    · rw [answers]
      by_cases hother : other = tid
      · rw [table, hother, AList.lookup_insert, Option.some.injEq] at hp
        rw [← hp]
        exact hfresh
      · rw [table, AList.lookup_insert_ne hother] at hp
        exact h.unanswered other p hp
    · rw [queries, List.length_append]
      exact Nat.lt_add_right _ (h.known reply (answers ▸ hr))
    · rw [table]
      exact (Table.length_insert_le _ _ _).trans room
  | answered data src flag pending msg datagram fits table queries answers =>
    have hwait := fits.waiting
    refine ⟨fun tid p hp => ?_, fun tid p hp => ?_, fun reply hr => ?_, ?_, ?_⟩
    · rw [table, Table.lookup_erase_iff] at hp
      rw [queries]
      exact h.asked tid p hp.2
    · rw [table, Table.lookup_erase_iff] at hp
      rw [answers, mem_replies, not_or]
      exact ⟨h.unanswered tid p hp.2, fun he => hp.1 (h.tid_unique hp.2 hwait he)⟩
    · rw [answers, mem_replies] at hr
      rw [queries]
      rcases hr with hold | rfl
      · exact h.known reply hold
      · exact h.reply_lt hwait
    · rw [answers]
      exact nodup_replies h.once (h.unanswered msg.t pending hwait)
    · rw [table]
      exact (List.kerase_sublist msg.t s.transactions.entries).length_le.trans h.bounded
  | expired keep table queries answers =>
    refine ⟨fun tid p hp => ?_, fun tid p hp => ?_, queries ▸ answers ▸ h.known, answers ▸ h.once, ?_⟩
    · rw [table] at hp
      rw [queries]
      exact h.asked tid p (lookup_retain hp)
    · rw [table] at hp
      rw [answers]
      exact h.unanswered tid p (lookup_retain hp)
    · rw [table]
      exact List.filter_sublist.length_le.trans h.bounded

end Sound

theorem sound_exec (codec : KrpcCodec) (dualStack : Bool) (nextTid : UInt32)
    (inputs : List ServerInput) : Sound (exec (step codec) (new dualStack nextTid) inputs) :=
  exec_invariant (fun s input h => h.stepped (stepped codec s input)) inputs
    (Sound.start dualStack nextTid)

theorem table_of_unmatched {data : List UInt8} {src : SocketAddr} {room : Bool}
    (h : ¬ ∃ pending msg, Matches codec s data src pending msg) :
    (s.step codec (.datagram data src room)).transactions = s.transactions := by
  unfold step
  split
  case isTrue => rfl
  case isFalse =>
    dsimp only [handleDatagram]
    split
    case h_2 => rfl
    case h_1 msg _ hdecode =>
      split
      case isTrue hkind =>
        split
        case h_1 => rfl
        case h_2 pending hwaiting =>
          rw [if_neg fun hasked => h ⟨pending, msg, hdecode, hkind, hwaiting, hasked⟩]
      case isFalse => split <;> rfl

/-- Where a message in a channel comes from: a datagram that arrived after the query. -/
structure Origin (codec : KrpcCodec) (start : DhtServer) (inputs : List ServerInput)
    (query : ServerQuery) (reply : Nat) (msg : KrpcMessage) : Prop where
  kind : msg.y = "r" ∨ msg.y = "e"
  tid : query.tid = some msg.t
  datagram : ∃ earlier data src room later,
    inputs = earlier ++ .datagram data src room :: later ∧
      (exec (step codec) start earlier).queries[reply]? = some query ∧
      codec.decode (data.take RECV_BUFFER) = some msg ∧ canonical src = canonical query.target

theorem Origin.append {start : DhtServer} {inputs : List ServerInput} {query : ServerQuery}
    {reply : Nat} {msg : KrpcMessage} (h : Origin codec start inputs query reply msg)
    (input : ServerInput) : Origin codec start (inputs ++ [input]) query reply msg := by
  obtain ⟨kind, tid, earlier, data, src, room, later, hinputs, hrest⟩ := h
  exact ⟨kind, tid, earlier, data, src, room, later ++ [input], by rw [hinputs]; simp, hrest⟩

theorem queries_prefix (hstep : Stepped codec s input t) : s.queries <+: t.queries := by
  cases hstep with
  | same _ queries => exact queries ▸ List.prefix_refl _
  | refused _ _ _ queries => exact queries ▸ List.prefix_append _ _
  | dropped _ _ queries => exact queries ▸ List.prefix_append _ _
  | waits _ _ _ _ _ queries => exact queries ▸ List.prefix_append _ _
  | answered _ _ _ _ _ _ _ _ queries => exact queries ▸ List.prefix_refl _
  | expired _ _ queries => exact queries ▸ List.prefix_refl _

theorem answer_of_stepped {reply : Nat} {msg : KrpcMessage} (hstep : Stepped codec s input t)
    (h : ⟨reply, .ok msg⟩ ∈ t.answers) : ⟨reply, .ok msg⟩ ∈ s.answers ∨
      ∃ data src room pending, input = .datagram data src room ∧
        Matches codec s data src pending msg ∧ pending.reply = reply := by
  cases hstep with
  | same _ _ answers => exact .inl (answers ▸ h)
  | refused query error _ _ answers =>
    rw [answers, List.mem_append, List.mem_singleton] at h
    exact h.imp_right fun he => nomatch he
  | dropped _ _ _ answers => exact .inl (answers ▸ h)
  | waits _ _ _ _ _ _ answers => exact .inl (answers ▸ h)
  | answered data src room pending msg' datagram fits _ _ answers =>
    rw [answers, List.mem_append, List.mem_singleton] at h
    refine h.imp_right fun he => ?_
    cases he
    exact ⟨data, src, room, pending, datagram, fits, rfl⟩
  | expired _ _ _ answers => exact .inl (answers ▸ h)

theorem origin_exec {start : DhtServer} (hstart : start.Sound) (hnone : start.answers = [])
    (inputs : List ServerInput) {reply : Nat} {msg : KrpcMessage}
    (h : ⟨reply, .ok msg⟩ ∈ (exec (step codec) start inputs).answers) :
    ∃ query, (exec (step codec) start inputs).queries[reply]? = some query ∧
      Origin codec start inputs query reply msg := by
  induction inputs using List.reverseRecOn with
  | nil =>
    rw [exec_nil, hnone] at h
    cases h
  | append_singleton inputs input ih =>
    rw [exec_append] at h ⊢
    have hsound : Sound (exec (step codec) start inputs) :=
      exec_invariant (fun s i hs => hs.stepped (stepped codec s i)) inputs hstart
    have hstep := stepped codec (exec (step codec) start inputs) input
    have hkept {query : ServerQuery}
        (hq : (exec (step codec) start inputs).queries[reply]? = some query) :
        ((exec (step codec) start inputs).step codec input).queries[reply]? = some query := by
      obtain ⟨more, hmore⟩ := queries_prefix hstep
      rw [← hmore, List.getElem?_append_left (List.getElem?_eq_some_iff.mp hq).1, hq]
    rcases answer_of_stepped hstep h with hold | ⟨data, src, room, pending, rfl, fits, rfl⟩
    · obtain ⟨query, hquery, horigin⟩ := ih hold
      exact ⟨query, hkept hquery, horigin.append input⟩
    · obtain ⟨query, hquery, htid, htarget⟩ := hsound.asked msg.t pending fits.waiting
      exact ⟨query, hkept hquery, fits.kind, htid, inputs, data, src, room, [], rfl, hquery,
        fits.decoded, fits.asked.symm.trans htarget⟩

/-- Only the node that was asked answers a query, under the id the query got, and at most once;
what does not match changes nothing, and the table stays bounded. -/
theorem replies_bound (codec : KrpcCodec) (dualStack : Bool) (nextTid : UInt32)
    (inputs : List ServerInput) :
    let start := new dualStack nextTid
    let s := exec (step codec) start inputs
    (∀ reply msg, ⟨reply, .ok msg⟩ ∈ s.answers →
      ∃ query, s.queries[reply]? = some query ∧ Origin codec start inputs query reply msg) ∧
    (s.answers.map (·.reply)).Nodup ∧
    (∀ data src room, (¬ ∃ pending msg, Matches codec s data src pending msg) →
      (s.step codec (.datagram data src room)).transactions = s.transactions) ∧
    s.transactions.entries.length ≤ MAX_PENDING := by
  intro start s
  have hsound : s.Sound := sound_exec codec dualStack nextTid inputs
  exact ⟨fun reply msg h => origin_exec (Sound.start dualStack nextTid) rfl inputs h, hsound.once,
    fun data src room h => table_of_unmatched h, hsound.bounded⟩

end Tortor.Net.DhtServer
