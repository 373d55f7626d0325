import Tortor.Core.Torrent
import Tortor.Lib.Directory
import Tortor.Lib.Run

/-! Calls of `atomic_write` for one path, in steps that may fail and may be interleaved. -/

namespace Tortor.Core

open Tortor.Lib

def fileName (path : Path) : Option String :=
  path.getLast?.filter (· ≠ "..")

def withFileName (path : Path) (name : String) : Path :=
  (if (fileName path).isSome then path.dropLast else path) ++ [name]

def tmpSibling (path : Path) : Path :=
  withFileName path ((fileName path).getD "" ++ ".tmp")

theorem tmpSibling_ne (path : Path) : tmpSibling path ≠ path := by
  intro he
  unfold tmpSibling withFileName at he
  cases hn : fileName path with
  | none =>
    rw [hn] at he
    simpa using congrArg List.length he
  | some name =>
    rw [hn] at he
    have hlast : path.getLast? = some name := (Option.filter_eq_some_iff.mp hn).1
    rw [← he] at hlast
    simp at hlast

namespace AtomicWrite

inductive Phase
  | preparing
  | creating
  | writing (inode written : Nat)
  | syncing (inode : Nat)
  | publishing (inode : Nat)
  | cleaning
  | ended (ok : Bool)
  deriving DecidableEq

/-- What the system answers to a call; a write takes that many bytes at most. -/
inductive Outcome
  | done (taken : Nat)
  | failed
  deriving DecidableEq

def advance (path : Path) (bytes : List UInt8) (outcome : Outcome) (dir : Directory Path) :
    Phase → Directory Path × Phase
  | .preparing =>
    -- a path without a parent needs no directory
    match if path.dropLast = [] then .done 0 else outcome with
    | .done _ => (dir, .creating)
    | .failed => (dir, .ended false)
  | .creating =>
    match outcome with
    | .done _ => ((dir.create (tmpSibling path)).2, .writing (dir.create (tmpSibling path)).1 0)
    | .failed => (dir, .cleaning)
  | .writing inode written =>
    if written < bytes.length then
      match outcome with
      | .failed | .done 0 => (dir, .cleaning)
      | .done taken =>
        let chunk := (bytes.drop written).take taken
        (dir.write inode written chunk, .writing inode (written + chunk.length))
    else (dir, .syncing inode)
  | .syncing inode =>
    match outcome with
    | .done _ => (dir.sync inode, .publishing inode)
    | .failed => (dir, .cleaning)
  | .publishing _ =>
    match outcome with
    | .done _ =>
      match dir.rename (tmpSibling path) path with
      | some dir => (dir, .ended true)
      | none => (dir, .cleaning)
    | .failed => (dir, .cleaning)
  | .cleaning =>
    match outcome with
    | .done _ => (dir.remove (tmpSibling path), .ended false)
    | .failed => (dir, .ended false)
  | .ended ok => (dir, .ended ok)

structure Calls (ι : Type) where
  dir : Directory Path
  phase : ι → Phase

variable {ι : Type} [DecidableEq ι]

def Calls.start (dir : Directory Path) : Calls ι := ⟨dir, fun _ => .preparing⟩

def Calls.step (path : Path) (bytes : ι → List UInt8) (s : Calls ι) (input : ι × Outcome) :
    Calls ι :=
  let (dir, phase) := advance path (bytes input.1) input.2 s.dir (s.phase input.1)
  ⟨dir, Function.update s.phase input.1 phase⟩

def Phase.inode : Phase → Option Nat
  | .writing inode _ | .syncing inode | .publishing inode => some inode
  | _ => none

def Phase.Written (bytes : List UInt8) (node : Node) : Phase → Prop
  | .writing _ written => written ≤ bytes.length ∧ node.content = bytes.take written
  | .syncing _ => node.content = bytes
  | .publishing _ => node = ⟨bytes, true⟩
  | _ => True

def Replaced (bytes : ι → List UInt8) (old : Option (List UInt8)) (s : Calls ι)
    (content : Option (List UInt8)) : Prop :=
  content = old ∨ ∃ c, s.phase c = .ended true ∧ content = some (bytes c)

/-- The file of the path is on stable storage, and the temporary name does not lead to it. -/
structure Stable (dir : Directory Path) (path : Path) : Prop where
  known : dir.Known
  past_eq : dir.past = []
  synced : ∀ i, dir.names path = some i → (dir.nodes i).synced = true
  apart : ∀ i, dir.names path = some i → dir.names (tmpSibling path) ≠ some i

structure Inv (path : Path) (bytes : ι → List UInt8) (old : Option (List UInt8)) (s : Calls ι) :
    Prop where
  known : s.dir.Known
  sealed : s.dir.Sealed path (Replaced bytes old s)
  apart : ∀ i, s.dir.Led path i → s.dir.names (tmpSibling path) ≠ some i
  holding : ∀ c i, (s.phase c).inode = some i → i < s.dir.next ∧ ¬ s.dir.Led path i ∧
    (∀ j, s.dir.names (tmpSibling path) = some j → j = i) ∧
    (s.phase c).Written (bytes c) (s.dir.nodes i)
  alone : ∀ c c', (s.phase c).inode.isSome → (s.phase c').inode.isSome → c = c'

/-- A call creates the temporary file only while no other is between the creation of the temporary
file and its renaming. -/
def Apart (s : Calls ι) (input : ι × Outcome) : Prop :=
  s.phase input.1 = .creating → input.2 ≠ .failed → ∀ c, (s.phase c).inode = none

section
variable {path : Path} {bytes : ι → List UInt8} {old : Option (List UInt8)} {s : Calls ι} {c : ι}
  {p : Phase}

theorem Replaced.update (hopen : s.phase c ≠ .ended true) (dir : Directory Path) (p : Phase)
    {content : Option (List UInt8)} (h : Replaced bytes old s content) :
    Replaced bytes old ⟨dir, Function.update s.phase c p⟩ content := by
  rcases h with h | ⟨c', hc', h⟩
  · exact .inl h
  · have hne : c' ≠ c := fun he => hopen (he ▸ hc')
    exact .inr ⟨c', (Function.update_of_ne hne _ _).trans hc', h⟩

theorem Inv.alone_update (h : Inv path bytes old s)
    (hp : p.inode.isSome → (s.phase c).inode.isSome) :
    ∀ a b, (Function.update s.phase c p a).inode.isSome →
      (Function.update s.phase c p b).inode.isSome → a = b := by
  have hheld {a : ι} (ha : (Function.update s.phase c p a).inode.isSome) :
      (s.phase a).inode.isSome := by
    by_cases he : a = c
    · subst he
      rw [Function.update_self] at ha
      exact hp ha
    · rwa [Function.update_of_ne he] at ha
  exact fun a b ha hb => h.alone a b (hheld ha) (hheld hb)

theorem Inv.keep (h : Inv path bytes old s) (hopen : s.phase c ≠ .ended true)
    (hp : ∀ i, p.inode = some i →
      (s.phase c).inode = some i ∧ p.Written (bytes c) (s.dir.nodes i)) :
    Inv path bytes old ⟨s.dir, Function.update s.phase c p⟩ where
  known := h.known
  sealed := h.sealed.mono fun _ => Replaced.update hopen s.dir p
  apart := h.apart
  holding a i ha := by
    by_cases he : a = c
    · subst he
      simp only [Function.update_self] at ha ⊢
      obtain ⟨hheld, hwritten⟩ := hp i ha
      obtain ⟨hlt, hfree, hname, -⟩ := h.holding a i hheld
      exact ⟨hlt, hfree, hname, hwritten⟩
    · simp only [Function.update_of_ne he] at ha ⊢
      exact h.holding a i ha
  alone := h.alone_update fun hsome => by
    obtain ⟨i, hi⟩ := Option.isSome_iff_exists.mp hsome
    rw [(hp i hi).1]
    rfl

theorem Inv.fill (h : Inv path bytes old s) {i : Nat} (hi : (s.phase c).inode = some i)
    {node : Node} (hp : p.inode = some i) (hwritten : p.Written (bytes c) node) :
    Inv path bytes old
      ⟨{ s.dir with nodes := Function.update s.dir.nodes i node }, Function.update s.phase c p⟩ where
  known := h.known
  sealed := by
    have hopen : s.phase c ≠ .ended true := fun he => by rw [he] at hi; cases hi
    exact (h.sealed.update (h.holding c i hi).2.1 node s.dir.next).mono
      fun _ => Replaced.update hopen _ p
  apart := h.apart
  holding a j ha := by
    by_cases he : a = c
    · subst he
      simp only [Function.update_self] at ha ⊢
      obtain rfl : i = j := Option.some.inj (hp.symm.trans ha)
      obtain ⟨hlt, hfree, hname, -⟩ := h.holding a i hi
      refine ⟨hlt, hfree, hname, ?_⟩
      rwa [Function.update_self]
    · simp only [Function.update_of_ne he] at ha
      exact absurd (h.alone a c (Option.isSome_of_eq_some ha) (Option.isSome_of_eq_some hi)) he
  alone := h.alone_update fun _ => Option.isSome_of_eq_some hi

theorem Inv.create (h : Inv path bytes old s) (hopen : s.phase c ≠ .ended true)
    (hapart : ∀ a, (s.phase a).inode = none) :
    Inv path bytes old ⟨(s.dir.create (tmpSibling path)).2, Function.update s.phase c
      (.writing (s.dir.create (tmpSibling path)).1 0)⟩ := by
  have hne := tmpSibling_ne path
  obtain ⟨hknown, hlt, -⟩ := h.known.create (tmpSibling path)
  have hself : (s.dir.create (tmpSibling path)).2.names (tmpSibling path) =
      some (s.dir.create (tmpSibling path)).1 := s.dir.names_create_self
  -- the inode is the one of the temporary name, or a new one
  have hfree : ¬ s.dir.Led path (s.dir.create (tmpSibling path)).1 := by
    unfold Directory.create
    cases hn : s.dir.names (tmpSibling path) with
    | some i => exact fun hled => h.apart i hled hn
    | none => exact fun hled => Nat.lt_irrefl _ (h.known path _ hled)
  refine ⟨hknown, (h.sealed.create hne hfree).mono fun _ => Replaced.update hopen _ _, ?_, ?_, ?_⟩
  · intro i hled hn
    rw [hself] at hn
    cases hn
    exact hfree ((Directory.led_create hne).mp hled)
  · intro a i ha
    by_cases he : a = c
    · subst he
      simp only [Function.update_self, Phase.inode] at ha ⊢
      cases ha
      refine ⟨hlt, fun hled => hfree ((Directory.led_create hne).mp hled), fun j hj => ?_,
        Nat.zero_le _, ?_⟩
      · rw [hself] at hj
        exact (Option.some.inj hj).symm
      · rw [Directory.nodes_create_self]
        rfl
    · simp only [Function.update_of_ne he, hapart] at ha
      cases ha
  · have hholder {a : ι} (ha : (Function.update s.phase c
        (.writing (s.dir.create (tmpSibling path)).1 0) a).inode.isSome) : a = c := by
      by_contra he
      simp [Function.update_of_ne he, hapart] at ha
    exact fun a b ha hb => (hholder ha).trans (hholder hb).symm

theorem Inv.rename (h : Inv path bytes old s) {i : Nat} (hphase : s.phase c = .publishing i)
    {dir : Directory Path} (hrename : s.dir.rename (tmpSibling path) path = some dir) :
    Inv path bytes old ⟨dir, Function.update s.phase c (.ended true)⟩ := by
  have hne := tmpSibling_ne path
  have hopen : s.phase c ≠ .ended true := by simp [hphase]
  have hi : (s.phase c).inode = some i := by rw [hphase]; rfl
  obtain ⟨hlt, hfree, hname, hwritten⟩ := h.holding c i hi
  rw [hphase] at hwritten
  have hsealed : dir.Sealed path
      (Replaced bytes old ⟨dir, Function.update s.phase c (.ended true)⟩) := by
    refine (h.sealed.mono fun _ => Replaced.update hopen dir _).rename hrename hne fun j hj => ?_
    obtain rfl := hname j hj
    have hnode : s.dir.nodes j = ⟨bytes c, true⟩ := hwritten
    rw [hnode]
    exact ⟨rfl, .inr ⟨c, Function.update_self _ _ _, rfl⟩⟩
  have hgone : dir.names (tmpSibling path) = none := by
    obtain ⟨j, -, rfl⟩ := Directory.rename_eq hrename
    exact Function.update_self _ _ _
  refine ⟨h.known.rename hrename, hsealed, fun j _ hn => ?_, fun a j ha => ?_,
    h.alone_update fun hsome => ?_⟩
  · cases hgone.symm.trans hn
  · by_cases he : a = c
    · subst he
      simp only [Function.update_self, Phase.inode] at ha
      cases ha
    · simp only [Function.update_of_ne he] at ha
      exact absurd (h.alone a c (Option.isSome_of_eq_some ha) (Option.isSome_of_eq_some hi)) he
  · cases hsome

theorem Inv.remove (h : Inv path bytes old s) (hopen : s.phase c ≠ .ended true) :
    Inv path bytes old
      ⟨s.dir.remove (tmpSibling path), Function.update s.phase c (.ended false)⟩ := by
  have hne := tmpSibling_ne path
  have hgone : (s.dir.remove (tmpSibling path)).names (tmpSibling path) = none :=
    Function.update_self _ _ _
  refine ⟨h.known.remove _, (h.sealed.remove hne).mono fun _ => Replaced.update hopen _ _,
    fun j _ hn => ?_, fun a j ha => ?_, h.alone_update fun hsome => ?_⟩
  · cases hgone.symm.trans hn
  · by_cases he : a = c
    · subst he
      simp only [Function.update_self, Phase.inode] at ha
      cases ha
    · simp only [Function.update_of_ne he] at ha ⊢
      obtain ⟨hlt, hfree, -, hwritten⟩ := h.holding a j ha
      refine ⟨hlt, fun hled => hfree ((Directory.led_remove hne).mp hled), fun k hk => ?_, hwritten⟩
      cases hgone.symm.trans hk
  · cases hsome

theorem written_write {i written taken : Nat} {data : List UInt8} {dir : Directory Path}
    (h : (Phase.writing i written).Written data (dir.nodes i)) :
    (Phase.writing i (written + ((data.drop written).take taken).length)).Written data
      ⟨overlay (dir.nodes i).content written ((data.drop written).take taken), false⟩ := by
  obtain ⟨hle, hcontent⟩ := h
  have hlen : (data.take written).length = written := List.length_take_of_le hle
  refine ⟨by simp; omega, ?_⟩
  show overlay (dir.nodes i).content written _ = _
  rw [hcontent]
  rw [overlay_length hlen, List.take_add]
  congr 1
  exact List.take_eq_take_iff.mpr (by simp)

theorem Inv.step (h : Inv path bytes old s) (input : ι × Outcome) (hapart : Apart s input) :
    Inv path bytes old (s.step path bytes input) := by
  obtain ⟨c, outcome⟩ := input
  unfold Calls.step
  cases hphase : s.phase c with
  | preparing =>
    simp only [advance]
    split
    · exact h.keep (by simp [hphase]) (by simp [Phase.inode])
    · exact h.keep (by simp [hphase]) (by simp [Phase.inode])
  | creating =>
    cases outcome with
    | done => exact h.create (by simp [hphase]) (hapart hphase (by simp))
    | failed => exact h.keep (by simp [hphase]) (by simp [Phase.inode])
  | writing i written =>
    have hi : (s.phase c).inode = some i := by rw [hphase]; rfl
    have hwritten := (h.holding c i hi).2.2.2
    rw [hphase] at hwritten
    simp only [advance]
    split
    case isFalse hall =>
      refine h.keep (by simp [hphase]) fun j hj => ?_
      cases hj
      obtain ⟨hle, hcontent⟩ := hwritten
      refine ⟨hi, ?_⟩
      rw [List.take_of_length_le (by omega)] at hcontent
      exact hcontent
    case isTrue =>
      split
      · exact h.keep (by simp [hphase]) (by simp [Phase.inode])
      · exact h.keep (by simp [hphase]) (by simp [Phase.inode])
      · exact h.fill hi rfl (written_write hwritten)
  | syncing i =>
    have hi : (s.phase c).inode = some i := by rw [hphase]; rfl
    have hwritten := (h.holding c i hi).2.2.2
    rw [hphase] at hwritten
    cases outcome with
    | done => exact h.fill hi rfl (congrArg (Node.mk · true) hwritten)
    | failed => exact h.keep (by simp [hphase]) (by simp [Phase.inode])
  | publishing i =>
    cases outcome with
    | done =>
      simp only [advance]
      cases hrename : s.dir.rename (tmpSibling path) path with
      | none => exact h.keep (by simp [hphase]) (by simp [Phase.inode])
      | some dir => exact h.rename hphase hrename
    | failed => exact h.keep (by simp [hphase]) (by simp [Phase.inode])
  | cleaning =>
    cases outcome with
    | done => exact h.remove (by simp [hphase])
    | failed => exact h.keep (by simp [hphase]) (by simp [Phase.inode])
  | ended ok =>
    show Inv path bytes old ⟨s.dir, Function.update s.phase c (.ended ok)⟩
    rw [← hphase, Function.update_eq_self]
    exact h

omit [DecidableEq ι] in
theorem inv_start {dir : Directory Path} (h : Stable dir path) :
    Inv path bytes (dir.read path) (Calls.start dir) := by
  have hled {i : Nat} (hi : dir.Led path i) : dir.names path = some i := by
    obtain ⟨names, hm, hn⟩ := hi
    rw [h.past_eq, List.mem_singleton] at hm
    rwa [hm] at hn
  refine ⟨h.known, ⟨fun names hm hn => ?_, fun i hi => h.synced i (hled hi), fun i hi => ?_⟩,
    fun i hi => h.apart i (hled hi), fun c i hi => ?_, fun c c' hc => ?_⟩
  · rw [show (Calls.start dir : Calls ι).dir.past = [] from h.past_eq, List.mem_singleton] at hm
    rw [hm] at hn
    exact .inl (by rw [Directory.read, show dir.names path = none from hn]; rfl)
  · exact .inl (by rw [Directory.read, hled hi]; rfl)
  · cases hi
  · cases hc

/-- A call leaves the old content or the new one, also when the machine stops, and the old one
when it fails.  So do several calls for one path, as long as none of them creates the temporary
file while another has not yet renamed it. -/
theorem atomic_write_replaces {path : Path} {dir : Directory Path} (h : Stable dir path) :
    (∀ (bytes : List UInt8) (outcomes : List Outcome),
      let s := exec (Calls.step path fun _ : Unit => bytes) (.start dir)
        (outcomes.map fun outcome => ((), outcome))
      let Holds (content : Option (List UInt8)) := content = dir.read path ∨ content = some bytes
      Holds (s.dir.read path) ∧ (∀ after, s.dir.Crash after → Holds (after.read path)) ∧
        (s.phase () = .ended false → s.dir.read path = dir.read path)) ∧
    ∀ (ι : Type) [DecidableEq ι] (bytes : ι → List UInt8) (steps : List (ι × Outcome)),
      Along (Calls.step path bytes) Apart (.start dir) steps →
      let s := exec (Calls.step path bytes) (.start dir) steps
      Replaced bytes (dir.read path) s (s.dir.read path) ∧
        ∀ after, s.dir.Crash after → Replaced bytes (dir.read path) s (after.read path) := by
  have hrun {ι : Type} [DecidableEq ι] (bytes : ι → List UInt8) (steps : List (ι × Outcome))
      (halong : Along (Calls.step path bytes) Apart (.start dir) steps) :
      Inv path bytes (dir.read path) (exec (Calls.step path bytes) (.start dir) steps) :=
    exec_invariant_along (fun _ input hs hapart => hs.step input hapart) halong (inv_start h)
  constructor
  · intro bytes outcomes s Holds
    -- a call that is alone finds nobody else at the temporary file
    have halong (s : Calls Unit) (steps : List (Unit × Outcome)) :
        Along (Calls.step path fun _ => bytes) Apart s steps :=
      (along_true s steps).mono fun s input _ hphase _ c => by
        rw [show s.phase c = .creating from hphase]
        rfl
    have hinv := hrun (fun _ : Unit => bytes) (outcomes.map fun outcome => ((), outcome))
      (halong (.start dir) _)
    have hholds {content : Option (List UInt8)}
        (hr : Replaced (fun _ => bytes) (dir.read path) s content) : Holds content :=
      hr.imp_right fun ⟨_, _, he⟩ => he
    refine ⟨hholds hinv.sealed.read, fun after ha => hholds (hinv.sealed.crash ha), fun herr => ?_⟩
    rcases hinv.sealed.read with hr | ⟨c, hc, -⟩
    · exact hr
    · cases hc.symm.trans herr
  · intro ι _ bytes steps halong
    have hinv := hrun bytes steps halong
    exact ⟨hinv.sealed.read, fun after ha => hinv.sealed.crash ha⟩

end

def oneFile (path : Path) (content : List UInt8) : Directory Path where
  names name := if name = path then some 0 else none
  nodes _ := ⟨content, true⟩
  next := 1
  past := []

theorem stable_oneFile (path : Path) (content : List UInt8) : Stable (oneFile path content) path where
  known name i hi := by
    obtain ⟨names, hm, hn⟩ := hi
    rw [show (oneFile path content).past = [] from rfl, List.mem_singleton] at hm
    subst hm
    simp only [oneFile] at hn
    split at hn
    · cases hn
      exact Nat.one_pos
    · cases hn
  past_eq := rfl
  synced _ _ := rfl
  apart i _ hn := by simp [oneFile, tmpSibling_ne] at hn

def twoBytes (first : Bool) : List UInt8 := if first then [2] else [3]

def consecutive : List (Bool × Outcome) :=
  List.replicate 7 (true, .done 1) ++ List.replicate 7 (false, .done 1)

instance (s : Calls Bool) (input : Bool × Outcome) : Decidable (Apart s input) :=
  inferInstanceAs (Decidable (_ → _ → ∀ c, (s.phase c).inode = none))

theorem atomic_write_replaces_consecutive :
    let s := exec (Calls.step ["a"] twoBytes) (.start (oneFile ["a"] [1])) consecutive
    s.dir.read ["a"] = some [3] ∧ Replaced twoBytes (some [1]) s (s.dir.read ["a"]) :=
  ⟨by decide, ((atomic_write_replaces (stable_oneFile ["a"] [1])).2 Bool twoBytes consecutive
    (by decide)).1⟩

def overlapping : List (Bool × Outcome) :=
  [(true, .done 0), (true, .done 0), (true, .done 1), (true, .done 0), (true, .done 0),
    (false, .done 0), (false, .done 0), (true, .done 0)]

/-- The second call opens, and so empties, the file that the first one renames. -/
theorem overlapping_truncated : ¬ ∀ (path : Path) (dir : Directory Path), Stable dir path →
    ∀ (bytes : Bool → List UInt8) (steps : List (Bool × Outcome)),
      let s := exec (Calls.step path bytes) (.start dir) steps
      s.dir.read path = dir.read path ∨ ∃ c, s.dir.read path = some (bytes c) := by
  intro hall
  have hread : (exec (Calls.step ["a"] twoBytes) (.start (oneFile ["a"] [1]))
      overlapping).dir.read ["a"] = some [] := by
    decide
  rcases hall ["a"] _ (stable_oneFile ["a"] [1]) twoBytes overlapping with h | ⟨c, h⟩
  · exact absurd (hread.symm.trans h) (by decide)
  · cases c <;> exact absurd (hread.symm.trans h) (by decide)

end AtomicWrite
end Tortor.Core
