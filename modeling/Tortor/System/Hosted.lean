import Tortor.Net.SessionPosts
import Tortor.System.Stored
import Tortor.System.SwarmLaws

/-! The swarm of a torrent with the command loop of its background task.  The dashboard leaves a
change of the selected files in the mailbox and goes on, so that it is ahead of the coordinator
until the mailbox has been worked off. -/

namespace Tortor.System

open Tortor.Core Tortor.Core.Disk Tortor.Net Tortor.Lib

structure Hosted where
  swarm : Swarm
  currentFlags : List Bool

inductive HostedAction
  | swarm (action : Action)
  /-- The dashboard handles `CoreCommand::SelectionChanged` and reads `after`. -/
  | selectionChanged (after : List Bool)

namespace Hosted

def start (task : BackgroundTask) : Hosted := ⟨.start task.coordinator, task.currentFlags⟩

/-- The background task, if the coordinator were as far as the dashboard. -/
def task (s : Hosted) : BackgroundTask := ⟨s.swarm.coordinator, s.currentFlags, s.swarm.stopped⟩

def step (sha1 : List UInt8 → Digest) (codec : ExtensionCodec) (info : TorrentMeta) (s : Hosted) :
    HostedAction → Hosted
  | .swarm action => { s with swarm := s.swarm.step sha1 codec info action }
  | .selectionChanged after =>
    match info.files with
    | none => s
    | some files =>
      if s.task.requests info after then
        { swarm := s.swarm.step sha1 codec info
            (.command (BackgroundTask.setSelectionMsg info files s.currentFlags after))
          currentFlags := after }
      else s

def takenIn (s : Hosted) : HostedAction → List Input
  | .swarm (.deliver env) =>
    match s.swarm.stopped, s.swarm.mailbox with
    | false, .setSelection _ after _ :: _ => [.selectionChanged env after]
    | false, msg :: _ => [.message env msg]
    | _, _ => []
  | .swarm (.tick env) => [.tick env]
  | .swarm (.shutdown env) => [.shutdown env]
  | _ => []

def inputs (sha1 : List UInt8 → Digest) (codec : ExtensionCodec) (info : TorrentMeta) :
    Hosted → List HostedAction → List Input
  | _, [] => []
  | s, action :: actions => s.takenIn action ++ (s.step sha1 codec info action).inputs sha1 codec info actions

end Hosted

def HostedAction.Plain : HostedAction → Prop
  | .swarm (.command (.setSelection ..)) => False
  | _ => True

instance (action : HostedAction) : Decidable action.Plain := by
  unfold HostedAction.Plain
  split <;> infer_instance

/-- The changes in a mailbox lead from the files `flags` to the files `wanted`. -/
def Leads (info : TorrentMeta) (wanted : List Bool) : List Bool → List CoordinatorMsg → Prop
  | flags, [] => flags = wanted
  | flags, .setSelection selection after refetch :: rest =>
    (∃ files, info.files = some files ∧ validFlags info after ∧ after ≠ flags ∧
      .setSelection selection after refetch =
        BackgroundTask.setSelectionMsg info files flags after) ∧ Leads info wanted after rest
  | flags, _ :: rest => Leads info wanted flags rest

section Leads

variable {info : TorrentMeta} {wanted flags after : List Bool} {mailbox rest : List CoordinatorMsg}
  {msg : CoordinatorMsg}

def isSelectionChange : CoordinatorMsg → Bool
  | .setSelection .. => true
  | _ => false

theorem leads_cons (h : isSelectionChange msg = false) :
    Leads info wanted flags (msg :: rest) ↔ Leads info wanted flags rest := by
  cases msg <;> first | exact Iff.rfl | cases h

theorem Leads.append (h : Leads info wanted flags mailbox) (hmsg : isSelectionChange msg = false) :
    Leads info wanted flags (mailbox ++ [msg]) := by
  induction mailbox generalizing flags with
  | nil => exact (leads_cons hmsg).mpr h
  | cons first mailbox ih =>
    cases first with
    | setSelection => exact ⟨h.1, ih h.2⟩
    | _ => exact ih h

theorem Leads.change (h : Leads info wanted flags mailbox) {files : List TorrentFile}
    (hfiles : info.files = some files) (hvalid : validFlags info after) (hne : after ≠ wanted) :
    Leads info after flags
      (mailbox ++ [BackgroundTask.setSelectionMsg info files wanted after]) := by
  induction mailbox generalizing flags with
  | nil =>
    have he : flags = wanted := h
    subst he
    exact ⟨⟨files, hfiles, hvalid, hne, rfl⟩, rfl⟩
  | cons first mailbox ih =>
    cases first with
    | setSelection => exact ⟨h.1, ih h.2⟩
    | _ => exact ih h

end Leads

/-! What the sessions have for the coordinator, and what it has taken of them. -/

namespace Swarm

variable {sha1 : List UInt8 → Digest} {codec : ExtensionCodec} {info : TorrentMeta} {s : Swarm}

/-- What holds of the sessions and the mailbox, also after the coordinator has stopped. -/
structure Orderly (sha1 : List UInt8 → Digest) (codec : ExtensionCodec) (info : TorrentMeta)
    (s : Swarm) : Prop where
  proper : Each (fun id session => session.Proper (peerContext codec info) sha1 id) s.peers
  lively : s.stopped = false → s.Lively sha1 codec info
  emptied : s.stopped = true → s.mailbox = []
  current : Each (fun id session => session.phase ≠ .ended → ∀ msg ∈ s.mailbox,
    msg.replyTo = some id → Posted (peerContext codec info) id session.phase msg) s.peers
  verified : ∀ index data, .pieceDownloaded index data ∈ s.mailbox →
    Verified (peerContext codec info) sha1 index data

theorem Orderly.set (h : s.Orderly sha1 codec info) {id : Nat} (peer : ActivePeer)
    {session : PeerSession} (hproper : session.Proper (peerContext codec info) sha1 id)
    (hcurrent : session.phase ≠ .ended → ∀ msg ∈ s.mailbox, msg.replyTo = some id →
      Posted (peerContext codec info) id session.phase msg)
    (hlively : s.stopped = false → (s.withSession id peer session).Lively sha1 codec info) :
    (s.withSession id peer session).Orderly sha1 codec info where
  proper := Each.set (fun i other hi _ => h.proper i other hi) hproper
  lively := hlively
  emptied := h.emptied
  current := Each.set (fun i other hi _ => h.current i other hi) hcurrent
  verified := h.verified

theorem orderly_start (sha1 : List UInt8 → Digest) (codec : ExtensionCodec) (info : TorrentMeta)
    (coordinator : Coordinator) : (Swarm.start coordinator).Orderly sha1 codec info where
  proper := Each.nil _
  lively _ := .start coordinator
  emptied _ := rfl
  current := Each.nil _
  verified _ _ hm := absurd hm List.not_mem_nil

section Steps

variable {id : Nat} {peer : ActivePeer} {msg : CoordinatorMsg} {rest : List CoordinatorMsg}

theorem Orderly.add (h : s.Orderly sha1 codec info) (peerAddr : SocketAddr) (now : Nat) :
    let s' : Swarm :=
      { s with peers := s.peers ++ [⟨.new (peerContext codec info) peerAddr, now⟩] }
    (s'.stopped = false → s'.Lively sha1 codec info) → s'.Orderly sha1 codec info := by
  intro s' hlively
  refine ⟨h.proper.append (PeerSession.proper_new _ sha1 _ peerAddr), hlively, h.emptied,
    h.current.append fun _ msg hm hid => ?_, h.verified⟩
  cases hstopped : s.stopped with
  | true =>
    rw [h.emptied hstopped] at hm
    cases hm
  | false => exact absurd ((h.lively hstopped).known msg hm _ hid) (Nat.lt_irrefl _)

theorem Orderly.connect (h : s.Orderly sha1 codec info) (hpeer : s.peers[id]? = some peer)
    (hphase : peer.session.phase = .dialing) (supportsExtensions : Bool) (turn : Turn) :
    let s' := s.withSession id peer
      (peer.session.connect (peerContext codec info) id supportsExtensions turn)
    (s'.stopped = false → s'.Lively sha1 codec info) → s'.Orderly sha1 codec info := by
  refine fun hlively => h.set peer
    (PeerSession.proper_connect (h.proper _ _ hpeer) hphase supportsExtensions turn)
    (fun _ msg hm hid => ?_) hlively
  have hposted := h.current _ _ hpeer (by rw [hphase]; nofun) msg hm hid
  rw [hphase] at hposted
  cases hposted with
  | report _ hreport => cases (replyTo_of_isReport hreport).symm.trans hid

/-- While its request is in the mailbox, the session does not move. -/
theorem Orderly.current_turn (h : s.Orderly sha1 codec info) (hpeer : s.peers[id]? = some peer)
    {result : PeerSession × UploadSlots} (turn : Turn)
    (hresult : result =
      peer.session.turn (peerContext codec info) sha1 id s.stopped turn s.uploadSlots)
    (hp : result.1.phase ≠ .ended) (hm : msg ∈ s.mailbox) (hid : msg.replyTo = some id) :
    Posted (peerContext codec info) id result.1.phase msg := by
  cases hstopped : s.stopped with
  | true =>
    rw [h.emptied hstopped] at hm
    cases hm
  | false =>
    have hended : peer.session.phase ≠ .ended := fun hended => hp (by
      rw [hresult, turn_of_ended hended]
      exact hended)
    obtain ⟨hasks, -, hnone⟩ :=
      ((h.lively hstopped).waits id peer hpeer hended).idle (h.proper _ _ hpeer).valid hm hid
    rw [hresult, hstopped, turn_of_waiting (awaits_of_asks hasks) hnone]
    exact h.current id peer hpeer hended msg hm hid

theorem Orderly.turn (h : s.Orderly sha1 codec info) (hpeer : s.peers[id]? = some peer)
    {result : PeerSession × UploadSlots} (turn : Turn)
    (hresult : result =
      peer.session.turn (peerContext codec info) sha1 id s.stopped turn s.uploadSlots) :
    let s' : Swarm := { s.withSession id peer result.1 with uploadSlots := result.2 }
    (s'.stopped = false → s'.Lively sha1 codec info) → s'.Orderly sha1 codec info := by
  intro s' hlively
  have hproper : result.1.Proper (peerContext codec info) sha1 id :=
    hresult ▸ PeerSession.proper_turn (h.proper _ _ hpeer) s.stopped turn s.uploadSlots
  have hset := h.set peer hproper
    (fun hp msg hm hid => h.current_turn hpeer turn hresult hp hm hid) fun hstopped =>
      have hlive := hlively hstopped
      ⟨hlive.valid, hlive.known, hlive.waits⟩
  exact ⟨hset.proper, hlively, hset.emptied, hset.current, hset.verified⟩

theorem mem_posted {mailbox : List CoordinatorMsg} {other : CoordinatorMsg}
    (h : other ∈ mailbox ++ [msg]) : other ∈ mailbox ∨ other = msg :=
  (List.mem_append.mp h).imp_right List.mem_singleton.mp

theorem Orderly.send (h : s.Orderly sha1 codec info) (hpeer : s.peers[id]? = some peer)
    (houtbox : peer.session.outbox = msg :: rest) (hrunning : s.stopped = false) :
    let s' : Swarm := { s.withSession id peer { peer.session with outbox := rest } with
      mailbox := s.mailbox ++ [msg] }
    (s'.stopped = false → s'.Lively sha1 codec info) → s'.Orderly sha1 codec info := by
  intro s' hlively
  have hproper := h.proper _ _ hpeer
  have hposted := hproper.posted msg (PeerSession.mem_of_outbox houtbox)
  have hown (i : Nat) (hi : msg.replyTo = some i) : i = id := by
    have hid := (hproper.valid.asks msg (PeerSession.mem_of_outbox houtbox) (by rw [hi]; rfl)).1
    cases hi.symm.trans hid
    rfl
  refine ⟨Each.set (fun i other hi _ => h.proper i other hi)
    (PeerSession.proper_sent hproper houtbox), hlively, fun hstopped => ?_,
    Each.set (fun i other hi hne hp other' hm hid => ?_) fun hp other' hm hid => ?_,
    fun index data hm => ?_⟩
  · cases hrunning.symm.trans hstopped
  · rcases mem_posted hm with hm | rfl
    · exact h.current i other hi hp other' hm hid
    · exact absurd (hown i hid) hne
  · rcases mem_posted hm with hm | rfl
    · exact h.current id peer hpeer hp other' hm hid
    · exact hposted
  · rcases mem_posted hm with hm | he
    · exact h.verified index data hm
    · exact hproper.valid.verified index data (he ▸ PeerSession.mem_of_outbox houtbox)

theorem Orderly.command (h : s.Orderly sha1 codec info) (hrunning : s.stopped = false)
    (hcommand : isCommand msg) :
    let s' : Swarm := { s with mailbox := s.mailbox ++ [msg] }
    (s'.stopped = false → s'.Lively sha1 codec info) → s'.Orderly sha1 codec info := by
  intro s' hlively
  refine ⟨h.proper, hlively, fun hstopped => ?_, fun i peer hi hp other hm hid => ?_,
    fun index data hm => ?_⟩
  · cases hrunning.symm.trans hstopped
  · rcases mem_posted hm with hm | rfl
    · exact h.current i peer hi hp other hm hid
    · cases (isCommand_silent hcommand).1.symm.trans hid
  · rcases mem_posted hm with hm | rfl
    · exact h.verified index data hm
    · cases hcommand

theorem Orderly.currentOf {mailbox : List CoordinatorMsg} (h : s.Orderly sha1 codec info)
    (hmailbox : ∀ msg ∈ mailbox, msg ∈ s.mailbox) :
    Each (fun id session => session.phase ≠ .ended → ∀ msg ∈ mailbox,
      msg.replyTo = some id → Posted (peerContext codec info) id session.phase msg) s.peers :=
  fun i peer hi hp other hm => h.current i peer hi hp other (hmailbox other hm)

theorem Orderly.notify {mailbox : List CoordinatorMsg} (h : s.Orderly sha1 codec info)
    (hrunning : s.stopped = false) (hmailbox : ∀ msg ∈ mailbox, msg ∈ s.mailbox)
    (coordinator : Coordinator) (events : List SessionEvent) :
    let s' : Swarm := { s with
      coordinator := coordinator
      mailbox := mailbox
      peers := s.peers.map (·.inform events) }
    (s'.stopped = false → s'.Lively sha1 codec info) → s'.Orderly sha1 codec info := by
  refine fun hlively => ⟨h.proper.map fun id peer hp => ⟨{ hp.valid with }, hp.posted⟩, hlively,
    fun hstopped => ?_, (h.currentOf hmailbox).map fun id peer hc => hc,
    fun index data hm => h.verified index data (hmailbox _ hm)⟩
  cases hrunning.symm.trans hstopped

theorem Orderly.answer {reply : Reply} (h : s.Orderly sha1 codec info)
    (hrunning : s.stopped = false) (hmailbox : s.mailbox = msg :: rest)
    (hid : msg.replyTo = some id)
    (hexpects : ∀ phase : Phase, phase.asks msg → phase.expects reply) (coordinator : Coordinator) :
    let s' := { s with coordinator := coordinator, mailbox := rest }.answer id reply
    (s'.stopped = false → s'.Lively sha1 codec info) → s'.Orderly sha1 codec info := by
  intro s' hlively
  have hrest : ∀ other ∈ rest, other ∈ s.mailbox := fun other hm =>
    hmailbox ▸ List.mem_cons_of_mem msg hm
  have hlive := h.lively hrunning
  obtain ⟨peer, hpeer⟩ : ∃ peer, s.peers[id]? = some peer :=
    ⟨_, List.getElem?_eq_getElem (hlive.known msg (hmailbox ▸ List.mem_cons_self) id hid)⟩
  have hreceive : (peer.session.receive reply).Proper (peerContext codec info) sha1 id ∧
      (peer.session.receive reply).phase = peer.session.phase := by
    by_cases hended : peer.session.phase = .ended
    · rw [PeerSession.receive_ended hended]
      exact ⟨h.proper id peer hpeer, rfl⟩
    · have hwaits := hlive.waits id peer hpeer hended
      rw [hmailbox] at hwaits
      obtain ⟨hopen, houtbox, hnone, -⟩ :=
        hwaits.receive (h.proper id peer hpeer).valid hid hexpects
      exact ⟨PeerSession.proper_receive (h.proper id peer hpeer) hopen houtbox hnone,
        by rw [PeerSession.receive_eq hopen]⟩
  refine ⟨?_, hlively, fun hstopped => ?_, ?_, ?_⟩
  · unfold s' Swarm.answer
    dsimp only
    rw [hpeer]
    exact Each.set (fun i other hi _ => h.proper i other hi) hreceive.1
  · rw [stopped_answer] at hstopped
    cases hrunning.symm.trans hstopped
  · unfold s' Swarm.answer
    dsimp only
    rw [hpeer]
    refine Each.set (fun i other hi _ => h.currentOf hrest i other hi) ?_
    rw [hreceive.2]
    exact h.currentOf hrest id peer hpeer
  · intro index data hm
    rw [mailbox_answer] at hm
    exact h.verified index data (hrest _ hm)

end Steps

theorem orderly_step (h : s.Orderly sha1 codec info) (action : Action) :
    (s.step sha1 codec info action).Orderly sha1 codec info := by
  have hchange := change_step sha1 codec info s action
  have hlively (hstill : (s.step sha1 codec info action).stopped = false) :
      (s.step sha1 codec info action).Lively sha1 codec info :=
    lively_step (h.lively (running_of_step hstill)) (running_of_step hstill) hstill
  generalize s.step sha1 codec info action = s' at hchange hlively ⊢
  cases hchange with
  | idle => exact h
  | dial peerAddr now => exact h.add peerAddr now hlively
  | connect supportsExtensions turn hpeer hphase =>
    exact h.connect hpeer hphase supportsExtensions turn hlively
  | dialFailed hpeer =>
    exact h.set _ (PeerSession.proper_drop (h.proper _ _ hpeer)) (fun hp => absurd rfl hp) hlively
  | abort hpeer =>
    exact h.set _ (PeerSession.proper_drop (h.proper _ _ hpeer)) (fun hp => absurd rfl hp) hlively
  | turn turn hpeer hresult => exact h.turn hpeer turn hresult hlively
  | send hpeer houtbox hrunning => exact h.send hpeer houtbox hrunning hlively
  | refuse hpeer houtbox hstopped =>
    refine h.set _ (PeerSession.proper_sendFailed (h.proper _ _ hpeer) houtbox)
      (fun _ other hm => ?_) hlively
    rw [h.emptied hstopped] at hm
    cases hm
  | @deliver env msg rest hrunning hmailbox =>
    rcases effects_handle env s.coordinator msg with ⟨-, hnotices⟩ | ⟨id, reply, hid, he, hexpects⟩
    · rw [resume_notices hnotices] at hlively ⊢
      exact h.notify hrunning (fun other hm => hmailbox ▸ List.mem_cons_of_mem msg hm) _ _ hlively
    · rw [resume_answer he] at hlively ⊢
      exact h.answer hrunning hmailbox hid hexpects _ hlively
  | tick env hrunning =>
    rw [resume_notices (Coordinator.checkTick_cases sha1 env s.coordinator).1] at hlively ⊢
    exact h.notify hrunning (fun _ hm => hm) _ _ hlively
  | command hrunning hcommand => exact h.command hrunning hcommand hlively
  | @progress id peer now hpeer =>
    exact ⟨Each.set (fun i other hi _ => h.proper i other hi) (h.proper id peer hpeer), hlively,
      h.emptied, Each.set (fun i other hi _ => h.current i other hi) (h.current id peer hpeer),
      h.verified⟩
  | closeSwarm => exact ⟨h.proper, hlively, h.emptied, h.current, h.verified⟩
  | shutdown env hrunning =>
    exact ⟨h.proper, hlively, fun _ => rfl, fun _ _ _ _ _ hm => absurd hm List.not_mem_nil,
      fun _ _ hm => absurd hm List.not_mem_nil⟩

end Swarm

/-! The hosted swarm does to its coordinator what the background task does to its own. -/

theorem isSelectionChange_posted {ctx : PeerContext} {id : Nat} {phase : Phase}
    {msg : CoordinatorMsg} (h : Posted ctx id phase msg) : isSelectionChange msg = false := by
  cases h with
  | report _ hreport => cases msg <;> first | rfl | cases hreport
  | completed | work | block => rfl

def Swarm.isCoordinators : Action → Bool
  | .deliver _ | .tick _ | .shutdown _ => true
  | _ => false

/-- In all other steps at most a message is added to the mailbox. -/
theorem Swarm.step_aside {sha1 : List UInt8 → Digest} {codec : ExtensionCodec} {info : TorrentMeta}
    {s : Swarm} {action : Action} (h : s.Orderly sha1 codec info)
    (haction : isCoordinators action = false) (hplain : (HostedAction.swarm action).Plain) :
    (s.step sha1 codec info action).coordinator = s.coordinator ∧
      (s.step sha1 codec info action).stopped = s.stopped ∧
      ((s.step sha1 codec info action).mailbox = s.mailbox ∨
        ∃ msg, (s.step sha1 codec info action).mailbox = s.mailbox ++ [msg] ∧
          isSelectionChange msg = false) := by
  have hchange := change_step sha1 codec info s action
  generalize s.step sha1 codec info action = s' at hchange ⊢
  cases hchange with
  | send hpeer houtbox hrunning =>
    exact ⟨rfl, rfl, .inr ⟨_, rfl, isSelectionChange_posted
      ((h.proper _ _ hpeer).posted _ (PeerSession.mem_of_outbox houtbox))⟩⟩
  | @command msg _ hcommand =>
    refine ⟨rfl, rfl, .inr ⟨msg, rfl, ?_⟩⟩
    cases msg <;> first | rfl | exact hplain.elim
  | deliver | tick | shutdown => cases haction
  | _ => exact ⟨rfl, rfl, .inl rfl⟩

theorem Swarm.mailbox_resume (result : Coordinator × List Effect) (s : Swarm) :
    (s.resume result).mailbox = s.mailbox := by
  have hfold (effects : List Effect) (s : Swarm) :
      (effects.foldl Swarm.perform s).mailbox = s.mailbox := by
    induction effects generalizing s with
    | nil => rfl
    | cons e effects ih =>
      rw [List.foldl_cons, ih]
      cases e <;> first | rfl | exact mailbox_answer _ _ _
  exact hfold result.2 { s with coordinator := result.1 }

/-- `task` is the background task whose changes of files take effect when the coordinator makes
them. -/
structure Follows (info : TorrentMeta) (s : Hosted) (task : BackgroundTask) : Prop where
  coordinator : task.coordinator = s.swarm.coordinator
  stopped : task.stopped = s.swarm.stopped
  leads : s.swarm.stopped = false → Leads info s.currentFlags task.currentFlags s.swarm.mailbox

section Follows

variable {sha1 : List UInt8 → Digest} {codec : ExtensionCodec} {info : TorrentMeta} {s : Hosted}
  {task : BackgroundTask}

theorem follows_start (info : TorrentMeta) {task : BackgroundTask} (h : task.stopped = false) :
    Follows info (.start task) task := ⟨rfl, h, fun _ => rfl⟩

theorem follows_change (h : Follows info s task) (after : List Bool) :
    Follows info (s.step sha1 codec info (.selectionChanged after)) task := by
  simp only [Hosted.step]
  split
  case h_1 => exact h
  case h_2 files hfiles =>
    split
    case isFalse => exact h
    case isTrue hrequests =>
      rw [BackgroundTask.requests, Bool.and_eq_true, bne_iff_ne] at hrequests
      simp only [Swarm.step]
      split
      case isTrue hcommand =>
        rw [Bool.and_eq_true, Bool.not_eq_true'] at hcommand
        exact ⟨h.coordinator, h.stopped, fun _ =>
          (h.leads hcommand.1).change hfiles hrequests.1 hrequests.2⟩
      case isFalse hcommand =>
        -- nobody reads the mailbox any more
        refine ⟨h.coordinator, h.stopped, fun hrunning => absurd ?_ hcommand⟩
        rw [hrunning]
        rfl

theorem follows_handled (h : Follows info s task) (hrunning : s.swarm.stopped = false) {env : Env}
    {msg : CoordinatorMsg} {rest : List CoordinatorMsg} (hmailbox : s.swarm.mailbox = msg :: rest)
    {flags : List Bool} (hleads : Leads info s.currentFlags flags rest) :
    Follows info (s.step sha1 codec info (.swarm (.deliver env)))
      ⟨(task.coordinator.handle env msg).1, flags, false⟩ := by
  have hstep : s.swarm.step sha1 codec info (.deliver env) =
      { s.swarm with mailbox := rest }.resume (s.swarm.coordinator.handle env msg) := by
    simp only [Swarm.step, hrunning, hmailbox]
  obtain ⟨hc, hs⟩ := Swarm.resume_frame (s.swarm.coordinator.handle env msg)
    { s.swarm with mailbox := rest }
  rw [Hosted.step, hstep]
  refine ⟨?_, (hs.trans hrunning).symm, fun _ => ?_⟩
  · rw [h.coordinator]
    exact hc.symm
  · rw [Swarm.mailbox_resume]
    exact hleads

theorem follows_deliver (h : Follows info s task) (env : Env) :
    Follows info (s.step sha1 codec info (.swarm (.deliver env)))
      (exec (BackgroundTask.step sha1 info) task (s.takenIn (.swarm (.deliver env)))) := by
  cases hs : s.swarm.stopped with
  | true =>
    have hidle : s.swarm.step sha1 codec info (.deliver env) = s.swarm := by
      simp only [Swarm.step, hs]
    simp only [Hosted.takenIn, Hosted.step, hidle, hs, exec_nil]
    exact h
  | false =>
    have hleads := h.leads hs
    have hrunning : task.stopped = false := h.stopped.trans hs
    cases hm : s.swarm.mailbox with
    | nil =>
      have hidle : s.swarm.step sha1 codec info (.deliver env) = s.swarm := by
        simp only [Swarm.step, hs, hm]
      simp only [Hosted.takenIn, Hosted.step, hidle, hs, hm, exec_nil]
      exact h
    | cons msg rest =>
      rw [hm] at hleads
      cases hmsg : isSelectionChange msg with
      | false =>
        have htake : s.takenIn (.swarm (.deliver env)) = [.message env msg] := by
          cases msg with
          | setSelection => cases hmsg
          | _ => simp only [Hosted.takenIn, hs, hm]
        rw [htake, exec_cons, exec_nil, BackgroundTask.step, if_neg (by simp [hrunning]),
          hrunning]
        exact follows_handled h hs hm ((leads_cons hmsg).mp hleads)
      | true =>
        cases msg with
        | setSelection selection after refetch =>
          obtain ⟨⟨files, hfiles, hvalid, hne, he⟩, hrest⟩ := hleads
          have hrequests : task.requests info after = true := by
            rw [BackgroundTask.requests, Bool.and_eq_true, bne_iff_ne]
            exact ⟨hvalid, hne⟩
          have htake : s.takenIn (.swarm (.deliver env)) = [.selectionChanged env after] := by
            simp only [Hosted.takenIn, hs, hm]
          have hselect : task.step sha1 info (.selectionChanged env after) =
              ⟨(task.coordinator.handle env (.setSelection selection after refetch)).1, after,
                false⟩ := by
            simp only [BackgroundTask.step, BackgroundTask.select, hrunning, hfiles, hrequests, he]
            rfl
          rw [htake, exec_cons, exec_nil, hselect]
          exact follows_handled h hs hm hrest
        | _ => cases hmsg

theorem follows_tick (h : Follows info s task) (env : Env) :
    Follows info (s.step sha1 codec info (.swarm (.tick env)))
      (task.step sha1 info (.tick env)) := by
  obtain ⟨hc, hs⟩ := Swarm.resume_frame (s.swarm.coordinator.checkTick sha1 env) s.swarm
  simp only [Hosted.step, Swarm.step, BackgroundTask.step, h.stopped]
  split
  case isTrue => exact h
  case isFalse =>
    refine ⟨?_, hs.symm, fun hrunning => ?_⟩
    · rw [h.coordinator]
      exact hc.symm
    · rw [Swarm.mailbox_resume]
      exact h.leads (hs.symm.trans hrunning)

theorem follows_shutdown (h : Follows info s task) (env : Env) :
    Follows info (s.step sha1 codec info (.swarm (.shutdown env)))
      (task.step sha1 info (.shutdown env)) := by
  simp only [Hosted.step, Swarm.step, BackgroundTask.step, h.stopped]
  split
  case isTrue => exact h
  case isFalse =>
    rw [h.coordinator]
    exact ⟨rfl, rfl, nofun⟩

theorem follows_step {action : HostedAction} (horderly : s.swarm.Orderly sha1 codec info)
    (h : Follows info s task) (hplain : action.Plain) :
    Follows info (s.step sha1 codec info action)
      (exec (BackgroundTask.step sha1 info) task (s.takenIn action)) := by
  cases action with
  | selectionChanged after => exact follows_change h after
  | swarm action =>
    cases haction : Swarm.isCoordinators action with
    | true =>
      cases action with
      | deliver env => exact follows_deliver h env
      | tick env => exact follows_tick h env
      | shutdown env => exact follows_shutdown h env
      | _ => cases haction
    | false =>
      obtain ⟨hc, hs, hmailbox⟩ := Swarm.step_aside horderly haction hplain
      have hnone : s.takenIn (.swarm action) = [] := by
        cases action <;> first | rfl | cases haction
      rw [hnone]
      refine ⟨h.coordinator.trans hc.symm, h.stopped.trans hs.symm, fun hrunning => ?_⟩
      have hleads := h.leads (hs.symm.trans hrunning)
      rcases hmailbox with he | ⟨msg, he, hmsg⟩
      · exact he.symm ▸ hleads
      · exact he.symm ▸ hleads.append hmsg

theorem orderly_hosted (h : s.swarm.Orderly sha1 codec info) (action : HostedAction) :
    (s.step sha1 codec info action).swarm.Orderly sha1 codec info := by
  cases action with
  | swarm action => exact Swarm.orderly_step h _
  | selectionChanged after =>
    simp only [Hosted.step]
    split
    · exact h
    · split
      · exact Swarm.orderly_step h (.command _)
      · exact h

/-- Whatever the peers, the sessions and the mailbox do, the coordinator comes to the states that it
comes to when the dashboard hands it one input after the other, and the changes of files that still
wait make up the difference between the two. -/
theorem hosted_refines_task (sha1 : List UInt8 → Digest) (codec : ExtensionCodec)
    (info : TorrentMeta) (task : BackgroundTask) (hrunning : task.stopped = false)
    (actions : List HostedAction) (hplain : ∀ action ∈ actions, action.Plain) :
    Follows info (exec (Hosted.step sha1 codec info) (.start task) actions)
      (exec (BackgroundTask.step sha1 info) task
        ((Hosted.start task).inputs sha1 codec info actions)) := by
  have hrun (s : Hosted) (task : BackgroundTask) (horderly : s.swarm.Orderly sha1 codec info)
      (h : Follows info s task) : Follows info (exec (Hosted.step sha1 codec info) s actions)
        (exec (BackgroundTask.step sha1 info) task (s.inputs sha1 codec info actions)) := by
    induction actions generalizing s task with
    | nil => exact h
    | cons action actions ih =>
      rw [exec_cons, Hosted.inputs, exec_append]
      exact ih (fun a ha => hplain a (List.mem_cons_of_mem action ha)) _ _
        (orderly_hosted horderly action)
        (follows_step horderly h (hplain action List.mem_cons_self))
  exact hrun _ _ (Swarm.orderly_start sha1 codec info _) (follows_start info hrunning)

theorem hosted_refines_task_twoFiles :
    let s := startTwoFiles none rfl
    let actions := [.selectionChanged [true, false], .selectionChanged [false, true],
      .swarm (.deliver .calm)]
    Follows twoFiles (exec (Hosted.step sameHash noCodec twoFiles) (.start s) actions)
      (s.step sameHash twoFiles (.selectionChanged .calm [true, false])) :=
  hosted_refines_task sameHash noCodec twoFiles (startTwoFiles none rfl) rfl
    [.selectionChanged [true, false], .selectionChanged [false, true], .swarm (.deliver .calm)]
    (by decide)

end Follows

end Tortor.System
