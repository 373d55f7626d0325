import Mathlib.Tactic.Common
import Tortor.Core.Command

/-! The port mappings on the router, from the first request to the removal. -/

namespace Tortor.Net.PortMap

open Tortor.Core (IpAddr)

def LEASE_SECS : Nat := 3600

inductive Protocol
  | tcp
  | udp
  deriving DecidableEq

inductive MapError
  | leaseUnsupported
  | other (reason : String)
  deriving DecidableEq

inductive Reason
  | discovery (reason : String)
  | add (protocol : Protocol) (port : Nat) (err : MapError)
  | retry (err : MapError)
  deriving DecidableEq

inductive PortMapStatus
  | disabled
  | searching
  | mapped (externalIp : Option IpAddr)
  | unavailable (reason : Reason)
  deriving DecidableEq

inductive Effect
  | add (protocol : Protocol) (port lease : Nat) (answer : Except MapError Unit)
  | remove (protocol : Protocol) (port : Nat) (ok : Bool)
  | externalIp (answer : Option IpAddr)
  | status (status : PortMapStatus)

/-- The answers of a router during one call of `maintain`.  The mappings are counted: that of round
`i` for TCP is `2 * i` and that for UDP comes next. -/
structure Router where
  add : Nat → Except MapError Unit
  retry : Nat → Except MapError Unit
  externalIp : Nat → Option IpAddr
  remove : Protocol → Bool

def addMapping (router : Router) (port k : Nat) (protocol : Protocol) (lease : Nat) :
    Except Reason Nat × List Effect :=
  match router.add k with
  | .ok () => (.ok lease, [.add protocol port lease (.ok ())])
  | .error .leaseUnsupported =>
    if lease ≠ 0 then
      -- Retry the same mapping as a permanent one.
      match router.retry k with
      | .ok () => (.ok 0, [.add protocol port lease (.error .leaseUnsupported),
          .add protocol port 0 (.ok ())])
      | .error err => (.error (.retry err), [.add protocol port lease (.error .leaseUnsupported),
          .add protocol port 0 (.error err)])
    else (.error (.add protocol port .leaseUnsupported),
      [.add protocol port lease (.error .leaseUnsupported)])
  | .error (.other reason) => (.error (.add protocol port (.other reason)),
      [.add protocol port lease (.error (.other reason))])

def addBoth (router : Router) (port round lease : Nat) : Except Reason Nat × List Effect :=
  match addMapping router port (2 * round) .tcp lease with
  | (.error reason, tcp) => (.error reason, tcp)
  | (.ok lease, tcp) =>
    match addMapping router port (2 * round + 1) .udp lease with
    | (.error reason, udp) => (.error reason, tcp ++ udp)
    | (.ok lease, udp) => (.ok lease, tcp ++ udp)

def reportMapped (router : Router) (round : Nat) : List Effect :=
  [.externalIp (router.externalIp round), .status (.mapped (router.externalIp round))]

def removeBoth (router : Router) (port : Nat) : List Effect :=
  [.remove .tcp port (router.remove .tcp), .remove .udp port (router.remove .udp)]

/-- The loop of `maintain`; shutdown fires while it waits after `renewals` more rounds. -/
def maintainLoop (router : Router) (port : Nat) :
    (renewals round lease : Nat) → Except Reason Unit × List Effect
  | renewals, round, lease =>
    match addBoth router port round lease with
    | (.error reason, added) => (.error reason, added)
    | (.ok lease, added) =>
      let added := added ++ reportMapped router round
      match renewals with
      | 0 => (.ok (), added ++ removeBoth router port)
      | renewals + 1 =>
        let (result, rest) := maintainLoop router port renewals (round + 1) lease
        (result, added ++ rest)

def maintain (router : Router) (port renewals : Nat) : Except Reason Unit × List Effect :=
  maintainLoop router port renewals 0 LEASE_SECS

/-- What comes of one search for a router. -/
inductive Attempt
  | unreachable (reason : String)
  | found (router : Router) (renewals : Nat)

def discoverAndMaintain (port : Nat) : Attempt → Except Reason Unit × List Effect
  | .unreachable reason => (.error (.discovery reason), [])
  | .found router renewals => maintain router port renewals

/-- The search is repeated after each failure; shutdown fires in the wait after the last one. -/
def runUpnp (port : Nat) : List Attempt → Attempt → List Effect
  | rest, attempt =>
    .status .searching :: match discoverAndMaintain port attempt with
      | (.ok (), log) => log
      | (.error reason, log) => log ++ .status (.unavailable reason) :: match rest with
        | [] => []
        | next :: rest => runUpnp port rest next

def mapped (protocol : Protocol) : Bool → List Effect → Bool
  | on, [] => on
  | on, .add q _ _ (.ok ()) :: log => mapped protocol (on || decide (q = protocol)) log
  | on, .remove q _ _ :: log => mapped protocol (on && decide (q ≠ protocol)) log
  | on, _ :: log => mapped protocol on log

/-- Every protocol for which an add has succeeded has been removed after the last one. -/
def Removed (log : List Effect) : Prop := ∀ protocol, mapped protocol false log = false

namespace Router

def leaseAt (router : Router) : Nat → Nat
  | 0 => LEASE_SECS
  | k + 1 =>
    match router.add k with
    | .error .leaseUnsupported => 0
    | _ => router.leaseAt k

def Refuses (router : Router) (k : Nat) : Prop :=
  match router.add k with
  | .ok () => False
  | .error .leaseUnsupported => router.leaseAt k = 0 ∨ (router.retry k).isOk = false
  | .error (.other _) => True

instance (router : Router) (k : Nat) : Decidable (router.Refuses k) := by
  unfold Refuses
  split <;> infer_instance

end Router

@[simp] theorem mapped_append (protocol : Protocol) (on : Bool) (xs ys : List Effect) :
    mapped protocol on (xs ++ ys) = mapped protocol (mapped protocol on xs) ys := by
  induction xs generalizing on with
  | nil => rfl
  | cons e xs ih =>
    cases e with
    | add q port lease answer => cases answer <;> simp [mapped, ih]
    | remove | externalIp | status => simp [mapped, ih]

section
variable {router : Router} {port k : Nat} {protocol : Protocol}

theorem addMapping_granted (h : ¬ router.Refuses k) (port : Nat) (protocol : Protocol) :
    ∃ log, addMapping router port k protocol (router.leaseAt k) =
        (.ok (router.leaseAt (k + 1)), log) ∧
      ∀ q on, mapped q on log = (on || decide (protocol = q)) := by
  unfold Router.Refuses at h
  unfold addMapping
  rw [Router.leaseAt]
  cases hadd : router.add k with
  | ok => exact ⟨_, rfl, fun q on => rfl⟩
  | error err =>
    cases err with
    | other reason => simp [hadd] at h
    | leaseUnsupported =>
      simp only [hadd, not_or] at h
      simp only [ne_eq, h.1, not_false_eq_true, if_true]
      cases hretry : router.retry k with
      | ok => exact ⟨_, rfl, fun q on => rfl⟩
      | error => simp [hretry, Except.isOk, Except.toBool] at h

theorem addMapping_refused (h : router.Refuses k) (port : Nat) (protocol : Protocol) :
    ∃ reason log, addMapping router port k protocol (router.leaseAt k) = (.error reason, log) ∧
      ∀ q on, mapped q on log = on := by
  unfold Router.Refuses at h
  unfold addMapping
  cases hadd : router.add k with
  | ok => simp [hadd] at h
  | error err =>
    cases err with
    | other reason => exact ⟨_, _, rfl, fun q on => rfl⟩
    | leaseUnsupported =>
      simp only [hadd] at h
      by_cases hlease : router.leaseAt k = 0
      · simp only [ne_eq, hlease, not_true_eq_false, if_false]
        exact ⟨_, _, rfl, fun q on => rfl⟩
      · simp only [ne_eq, hlease, not_false_eq_true, if_true]
        cases hretry : router.retry k with
        | ok => simp [hretry, hlease, Except.isOk, Except.toBool] at h
        | error => exact ⟨_, _, rfl, fun q on => rfl⟩

def Router.Serves (router : Router) (round renewals : Nat) : Prop :=
  ∀ k, 2 * round ≤ k → k < 2 * (round + renewals + 1) → ¬ router.Refuses k

/-- What requests leave that nothing is removed by: the mappings there were, and those they have
added unless they were fruitless. -/
structure Leaves (fruitless : Prop) (log : List Effect) : Prop where
  kept : ∀ q, mapped q true log = true
  untouched : fruitless → ∀ q on, mapped q on log = on
  left : ¬ fruitless → mapped .tcp false log = true

theorem Leaves.quiet {log : List Effect} (h : ∀ q on, mapped q on log = on) : Leaves True log :=
  ⟨fun q => h q true, fun _ => h, fun hno => absurd trivial hno⟩

theorem Leaves.append {P Q : Prop} {xs ys : List Effect} (hx : Leaves P xs) (hy : Leaves Q ys) :
    Leaves (P ∧ Q) (xs ++ ys) where
  kept q := by rw [mapped_append, hx.kept, hy.kept]
  untouched h q on := by rw [mapped_append, hx.untouched h.1, hy.untouched h.2]
  left h := by
    rw [mapped_append]
    by_cases hP : P
    · rw [hx.untouched hP]
      exact hy.left fun hQ => h ⟨hP, hQ⟩
    · rw [hx.left hP, hy.kept]

theorem Leaves.of_iff {P Q : Prop} {log : List Effect} (h : Leaves P log) (hiff : P ↔ Q) :
    Leaves Q log := propext hiff ▸ h

theorem Leaves.removed_iff {P : Prop} {log : List Effect} (h : Leaves P log) : Removed log ↔ P := by
  refine ⟨fun hremoved => ?_, fun hP q => h.untouched hP q false⟩
  by_contra hno
  cases (h.left hno).symm.trans (hremoved .tcp)

theorem addBoth_granted {round : Nat} (htcp : ¬ router.Refuses (2 * round))
    (hudp : ¬ router.Refuses (2 * round + 1)) (port : Nat) :
    ∃ log, addBoth router port round (router.leaseAt (2 * round)) =
        (.ok (router.leaseAt (2 * (round + 1))), log) ∧ ∀ q on, mapped q on log = true := by
  obtain ⟨tcp, het, ht⟩ := addMapping_granted htcp port .tcp
  obtain ⟨udp, heu, hu⟩ := addMapping_granted hudp port .udp
  refine ⟨tcp ++ udp, ?_, fun q on => ?_⟩
  · simp only [addBoth, het, heu]
    rfl
  · rw [mapped_append, ht, hu]
    cases q <;> simp

theorem addBoth_refused {round : Nat}
    (h : router.Refuses (2 * round) ∨ router.Refuses (2 * round + 1)) (port : Nat) :
    ∃ reason log, addBoth router port round (router.leaseAt (2 * round)) = (.error reason, log) ∧
      Leaves (router.Refuses (2 * round)) log := by
  by_cases htcp : router.Refuses (2 * round)
  · obtain ⟨reason, log, he, hlog⟩ := addMapping_refused htcp port .tcp
    refine ⟨reason, log, by simp only [addBoth, he], (Leaves.quiet hlog).of_iff ?_⟩
    exact (iff_true_intro htcp).symm
  · obtain ⟨tcp, het, ht⟩ := addMapping_granted htcp port .tcp
    obtain ⟨reason, log, he, hlog⟩ := addMapping_refused (h.resolve_left htcp) port .udp
    refine ⟨reason, tcp ++ log, by simp only [addBoth, het, he], fun q => ?_,
      fun hr => absurd hr htcp, fun _ => ?_⟩
    · rw [mapped_append, ht, hlog, Bool.true_or]
    · rw [mapped_append, ht, hlog]
      rfl

theorem Router.Serves.granted {round renewals : Nat} (h : router.Serves round renewals) :
    ¬ (router.Refuses (2 * round) ∨ router.Refuses (2 * round + 1)) := fun hrefused => by
  rcases hrefused with hr | hr
  exacts [h _ (by omega) (by omega) hr, h _ (by omega) (by omega) hr]

theorem Router.serves_succ {round renewals : Nat}
    (h : ¬ (router.Refuses (2 * round) ∨ router.Refuses (2 * round + 1))) :
    router.Serves round (renewals + 1) ↔ router.Serves (round + 1) renewals := by
  obtain ⟨htcp, hudp⟩ := not_or.mp h
  refine ⟨fun hs k h₁ h₂ => hs k (by omega) (by omega), fun hs k h₁ h₂ => ?_⟩
  rcases Nat.lt_or_ge k (2 * (round + 1)) with hlt | hge
  · obtain rfl | rfl : k = 2 * round ∨ k = 2 * round + 1 := by omega
    exacts [htcp, hudp]
  · exact hs k hge (by omega)

/-- From a round on, the call returns well when every mapping is granted, and then nothing is left;
else it leaves what it has mapped. -/
theorem maintainLoop_spec (router : Router) (port renewals round : Nat) :
    let r := maintainLoop router port renewals round (router.leaseAt (2 * round))
    (router.Serves round renewals → r.1 = .ok () ∧ ∀ q on, mapped q on r.2 = false) ∧
      (¬ router.Serves round renewals →
        (∃ reason, r.1 = .error reason) ∧ Leaves (router.Refuses (2 * round)) r.2) := by
  intro r
  by_cases h : router.Refuses (2 * round) ∨ router.Refuses (2 * round + 1)
  · obtain ⟨reason, log, he, hleaves⟩ := addBoth_refused h port
    have hr : r = (.error reason, log) := by
      show maintainLoop router port renewals round (router.leaseAt (2 * round)) = _
      rw [maintainLoop, he]
    rw [hr]
    exact ⟨fun hserves => absurd h hserves.granted, fun _ => ⟨⟨reason, rfl⟩, hleaves⟩⟩
  · obtain ⟨htcp, hudp⟩ := not_or.mp h
    obtain ⟨log, he, hlog⟩ := addBoth_granted htcp hudp port
    have hadded (q : Protocol) (on : Bool) :
        mapped q on (log ++ reportMapped router round) = true := by
      rw [mapped_append, hlog]
      rfl
    cases renewals with
    | zero =>
      have hr : r = (.ok (), log ++ reportMapped router round ++ removeBoth router port) := by
        show maintainLoop router port 0 round (router.leaseAt (2 * round)) = _
        rw [maintainLoop, he]
      rw [hr]
      refine ⟨fun _ => ⟨rfl, fun q on => ?_⟩, fun hbad => absurd (fun k h₁ h₂ => ?_) hbad⟩
      · simp only [mapped_append _ _ (_ ++ _), hadded, mapped, removeBoth]
        cases q <;> rfl
      · obtain rfl | rfl : k = 2 * round ∨ k = 2 * round + 1 := by omega
        exacts [htcp, hudp]
    | succ renewals =>
      have hr : r = ((maintainLoop router port renewals (round + 1)
          (router.leaseAt (2 * (round + 1)))).1, log ++ reportMapped router round ++
            (maintainLoop router port renewals (round + 1)
              (router.leaseAt (2 * (round + 1)))).2) := by
        show maintainLoop router port (renewals + 1) round (router.leaseAt (2 * round)) = _
        rw [maintainLoop, he]
      obtain ⟨hgood, hbad⟩ := maintainLoop_spec router port renewals (round + 1)
      rw [hr]
      refine ⟨fun hs => ?_, fun hs => ?_⟩
      · obtain ⟨hok, hgone⟩ := hgood ((Router.serves_succ h).mp hs)
        exact ⟨hok, fun q on => by rw [mapped_append]; exact hgone q _⟩
      · obtain ⟨herror, hleaves⟩ := hbad (mt (Router.serves_succ h).mpr hs)
        have hkept (q : Protocol) (on : Bool) : mapped q on (log ++ reportMapped router round ++
            (maintainLoop router port renewals (round + 1)
              (router.leaseAt (2 * (round + 1)))).2) = true := by
          rw [mapped_append, hadded]
          exact hleaves.kept q
        exact ⟨herror, fun q => hkept q true, fun hr => absurd hr htcp, fun _ => hkept .tcp false⟩

def Attempt.Serves : Attempt → Prop
  | .unreachable _ => False
  | .found router renewals => router.Serves 0 renewals

def Attempt.Fruitless : Attempt → Prop
  | .unreachable _ => True
  | .found router _ => router.Refuses 0

theorem discoverAndMaintain_spec (port : Nat) (attempt : Attempt) :
    let r := discoverAndMaintain port attempt
    (attempt.Serves → r.1 = .ok () ∧ ∀ q on, mapped q on r.2 = false) ∧
      (¬ attempt.Serves → (∃ reason, r.1 = .error reason) ∧ Leaves attempt.Fruitless r.2) := by
  cases attempt with
  | unreachable reason => exact ⟨fun h => h.elim, fun _ => ⟨⟨_, rfl⟩, .quiet fun _ _ => rfl⟩⟩
  | found router renewals => exact maintainLoop_spec router port renewals 0

theorem runUpnp_ok {port : Nat} {attempt : Attempt}
    (h : (discoverAndMaintain port attempt).1 = .ok ()) (rest : List Attempt) :
    runUpnp port rest attempt = .status .searching :: (discoverAndMaintain port attempt).2 := by
  rw [runUpnp.eq_def]
  dsimp only
  generalize discoverAndMaintain port attempt = r at h ⊢
  obtain ⟨result, log⟩ := r
  cases h
  rfl

def failure (port : Nat) (attempt : Attempt) (reason : Reason) : List Effect :=
  [.status .searching] ++ (discoverAndMaintain port attempt).2 ++ [.status (.unavailable reason)]

theorem runUpnp_error {port : Nat} {attempt : Attempt} {reason : Reason}
    (h : (discoverAndMaintain port attempt).1 = .error reason) (rest : List Attempt) :
    runUpnp port rest attempt = failure port attempt reason ++
      match rest with
      | [] => []
      | next :: rest => runUpnp port rest next := by
  rw [runUpnp.eq_def, failure]
  dsimp only
  generalize discoverAndMaintain port attempt = r at h ⊢
  obtain ⟨result, log⟩ := r
  cases h
  simp

theorem leaves_failure {port : Nat} {attempt : Attempt} {P : Prop}
    (h : Leaves P (discoverAndMaintain port attempt).2) (reason : Reason) :
    Leaves P (failure port attempt reason) :=
  (((Leaves.quiet fun _ _ => rfl).append h).append (.quiet fun _ _ => rfl)).of_iff (by simp)

theorem runUpnp_spec (port : Nat) (rest : List Attempt) (attempt : Attempt) :
    ((∃ a ∈ attempt :: rest, a.Serves) → ∀ q on, mapped q on (runUpnp port rest attempt) = false) ∧
      ((∀ a ∈ attempt :: rest, ¬ a.Serves) →
        Leaves (∀ a ∈ attempt :: rest, a.Fruitless) (runUpnp port rest attempt)) := by
  induction rest generalizing attempt with
  | nil =>
    obtain ⟨hgood, hbad⟩ := discoverAndMaintain_spec port attempt
    by_cases hserves : attempt.Serves
    · obtain ⟨hok, hgone⟩ := hgood hserves
      rw [runUpnp_ok hok]
      exact ⟨fun _ => hgone, fun hno => absurd hserves (hno attempt List.mem_cons_self)⟩
    · obtain ⟨⟨reason, herror⟩, hleaves⟩ := hbad hserves
      rw [runUpnp_error herror, List.append_nil]
      refine ⟨fun hsome => ?_, fun _ => (leaves_failure hleaves reason).of_iff (by simp)⟩
      obtain ⟨a, ha, hs⟩ := hsome
      rw [List.mem_singleton.mp ha] at hs
      exact absurd hs hserves
  | cons next rest ih =>
    obtain ⟨hgood, hbad⟩ := discoverAndMaintain_spec port attempt
    obtain ⟨ihGood, ihBad⟩ := ih next
    by_cases hserves : attempt.Serves
    · obtain ⟨hok, hgone⟩ := hgood hserves
      rw [runUpnp_ok hok]
      exact ⟨fun _ => hgone, fun hno => absurd hserves (hno attempt List.mem_cons_self)⟩
    · obtain ⟨⟨reason, herror⟩, hleaves⟩ := hbad hserves
      rw [runUpnp_error herror]
      refine ⟨fun hsome q on => ?_, fun hno => ?_⟩
      · rw [mapped_append]
        refine ihGood ?_ q _
        obtain ⟨a, ha, hs⟩ := hsome
        rcases List.mem_cons.mp ha with rfl | ha
        exacts [absurd hs hserves, ⟨a, ha, hs⟩]
      · have hrest := ihBad fun a ha => hno a (List.mem_cons_of_mem _ ha)
        exact ((leaves_failure hleaves reason).append hrest).of_iff List.forall_mem_cons.symm

def Effect.Unsupported : Effect → Prop
  | .add _ _ _ (.error .leaseUnsupported) => True
  | _ => False

def Effect.Permanent : Effect → Prop
  | .add _ _ lease _ => lease = 0
  | _ => True

structure Leased (lease : Nat) (after : Option Nat) (log : List Effect) : Prop where
  permanent : lease = 0 → ∀ e ∈ log, e.Permanent
  fallsBack : log.Pairwise fun e f => e.Unsupported → f.Permanent
  next : ∀ lease', after = some lease' → (lease = 0 ∨ ∃ e ∈ log, e.Unsupported) → lease' = 0

theorem leased_addMapping (router : Router) (port k : Nat) (protocol : Protocol) (lease : Nat) :
    let r := addMapping router port k protocol lease
    Leased lease r.1.toOption r.2 := by
  unfold addMapping
  split
  · exact ⟨by simp [Effect.Permanent], by simp, by simp [Effect.Unsupported, Except.toOption]⟩
  · split
    · split
      · exact ⟨by simp [Effect.Permanent], by simp [Effect.Permanent], by simp [Except.toOption]⟩
      · exact ⟨by simp [Effect.Permanent], by simp [Effect.Permanent], by simp [Except.toOption]⟩
    · exact ⟨by simp [Effect.Permanent], by simp, by simp [Except.toOption]⟩
  · exact ⟨by simp [Effect.Permanent], by simp, by simp [Except.toOption]⟩

theorem leased_quiet (lease : Nat) {log : List Effect}
    (h : ∀ e ∈ log, ¬ e.Unsupported ∧ e.Permanent) : Leased lease (some lease) log where
  permanent _ e he := (h e he).2
  fallsBack := List.pairwise_of_forall_mem_list fun e he f _ hu => absurd hu (h e he).1
  next l hl hp := by
    cases hl
    exact hp.elim id fun hsome => by
      obtain ⟨e, he, hu⟩ := hsome
      exact absurd hu (h e he).1

theorem Leased.append {lease lease' : Nat} {after : Option Nat} {xs ys : List Effect}
    (hx : Leased lease (some lease') xs) (hy : Leased lease' after ys) :
    Leased lease after (xs ++ ys) where
  permanent h e he := by
    rcases List.mem_append.mp he with he | he
    · exact hx.permanent h e he
    · exact hy.permanent (hx.next lease' rfl (.inl h)) e he
  fallsBack := List.pairwise_append.mpr ⟨hx.fallsBack, hy.fallsBack, fun e he f hf hu =>
    hy.permanent (hx.next lease' rfl (.inr ⟨e, he, hu⟩)) f hf⟩
  next l hl h := by
    refine hy.next l hl ?_
    rcases h with h | ⟨e, he, hu⟩
    · exact .inl (hx.next lease' rfl (.inl h))
    · rcases List.mem_append.mp he with he | he
      · exact .inl (hx.next lease' rfl (.inr ⟨e, he, hu⟩))
      · exact .inr ⟨e, he, hu⟩

theorem leased_addBoth (router : Router) (port round lease : Nat) :
    let r := addBoth router port round lease
    Leased lease r.1.toOption r.2 := by
  have htcp := leased_addMapping router port (2 * round) .tcp lease
  unfold addBoth
  split
  case h_1 he => rw [he] at htcp; exact htcp
  case h_2 lease' tcp he =>
    rw [he] at htcp
    have hudp := leased_addMapping router port (2 * round + 1) .udp lease'
    split
    case h_1 he => rw [he] at hudp; exact htcp.append hudp
    case h_2 he => rw [he] at hudp; exact htcp.append hudp

theorem leased_maintainLoop (router : Router) (port renewals round lease : Nat) :
    Leased lease none (maintainLoop router port renewals round lease).2 := by
  have hboth := leased_addBoth router port round lease
  rw [maintainLoop.eq_def]
  dsimp only
  split
  case h_1 he => rw [he] at hboth; exact hboth
  case h_2 lease' added he =>
    rw [he] at hboth
    have hadded : Leased lease (some lease') (added ++ reportMapped router round) :=
      hboth.append (leased_quiet lease' (by simp [reportMapped, Effect.Unsupported, Effect.Permanent]))
    cases renewals with
    | zero =>
      have hremoved : Leased lease' (some lease') (removeBoth router port) :=
        leased_quiet lease' (by simp [removeBoth, Effect.Unsupported, Effect.Permanent])
      exact hadded.append ⟨hremoved.permanent, hremoved.fallsBack, fun _ hl => by cases hl⟩
    | succ renewals => exact hadded.append (leased_maintainLoop router port renewals (round + 1) lease')

/-- Nothing is left behind by a call of `maintain` exactly when the router grants every mapping
until shutdown or refuses the very first one; and by the whole task exactly when some attempt
serves until shutdown or no attempt maps anything.  Once a lease has been refused, every mapping is
asked for without one. -/
theorem mappings_removed_iff (port : Nat) :
    (∀ router renewals, Removed (maintain router port renewals).2 ↔
      (∀ k < 2 * (renewals + 1), ¬ router.Refuses k) ∨ router.Refuses 0) ∧
    (∀ rest attempt, Removed (runUpnp port rest attempt) ↔
      (∃ a ∈ attempt :: rest, a.Serves) ∨ ∀ a ∈ attempt :: rest, a.Fruitless) ∧
    ∀ router renewals, (maintain router port renewals).2.Pairwise
      fun e f => e.Unsupported → f.Permanent := by
  refine ⟨fun router renewals => ?_, fun rest attempt => ?_,
    fun router renewals => (leased_maintainLoop router port renewals 0 LEASE_SECS).fallsBack⟩
  · obtain ⟨hgood, hbad⟩ := maintainLoop_spec router port renewals 0
    have hserves : (∀ k < 2 * (renewals + 1), ¬ router.Refuses k) ↔ router.Serves 0 renewals :=
      ⟨fun h k _ hk => h k (by omega), fun h k hk => h k (Nat.zero_le _) (by omega)⟩
    rw [hserves]
    by_cases h : router.Serves 0 renewals
    · exact ⟨fun _ => .inl h, fun _ q => (hgood h).2 q false⟩
    · rw [or_iff_right h]
      exact (hbad h).2.removed_iff
  · obtain ⟨hgood, hbad⟩ := runUpnp_spec port rest attempt
    by_cases h : ∃ a ∈ attempt :: rest, a.Serves
    · exact ⟨fun _ => .inl h, fun _ q => hgood h q false⟩
    · rw [or_iff_right h]
      exact (hbad fun a ha hs => h ⟨a, ha, hs⟩).removed_iff

def halfMapping : Router where
  add k := if k % 2 = 0 then .ok () else .error (.other "conflict")
  retry _ := .ok ()
  externalIp _ := none
  remove _ := true

/-- The mapping for TCP stays when the one for UDP is refused. -/
theorem mapping_left : ¬ ∀ router port renewals, Removed (maintain router port renewals).2 :=
  fun hall => by cases hall halfMapping 6881 0 .tcp

end
end Tortor.Net.PortMap
