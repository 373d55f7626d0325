import Tortor.Lib.Run

/-! Reading a stream of frames from bytes that arrive in arbitrary portions.

A framing looks at the front of what has arrived and gives a verdict that later bytes
cannot change.  `scan` is what a whole byte string means; a decoder that holds back what it
has not used yet is measured against it. -/

namespace Tortor.Lib

inductive Verdict (M E : Type)
  | more
  | fail (error : E)
  | skip (used : Nat)
  | emit (message : M) (used : Nat)

structure Framing (β M E : Type) where
  head : List β → Verdict M E
  head_append : ∀ xs ys, head xs ≠ .more → head (xs ++ ys) = head xs
  skip_used : ∀ xs used, head xs = .skip used → 0 < used ∧ used ≤ xs.length
  emit_used : ∀ xs message used, head xs = .emit message used → 0 < used ∧ used ≤ xs.length

namespace Framing

variable {β M E : Type} (F : Framing β M E)

/-- The messages in `xs` up to the first error, and that error. -/
def scan (xs : List β) : List M × Option E :=
  match h : F.head xs with
  | .more => ([], none)
  | .fail error => ([], some error)
  | .skip used =>
    have := F.skip_used xs used h
    scan (xs.drop used)
  | .emit message used =>
    have := F.emit_used xs message used h
    let rest := scan (xs.drop used)
    (message :: rest.1, rest.2)
termination_by xs.length
decreasing_by all_goals simp only [List.length_drop]; omega

inductive Reads : List β → List M → List β → Prop
  | stop (xs : List β) : Reads xs [] xs
  | skip {xs ys : List β} {messages : List M} {used : Nat} (h : F.head xs = .skip used) :
    Reads (xs.drop used) messages ys → Reads xs messages ys
  | emit {xs ys : List β} {messages : List M} {message : M} {used : Nat}
    (h : F.head xs = .emit message used) :
    Reads (xs.drop used) messages ys → Reads xs (message :: messages) ys

variable {F} {xs ys : List β} {message : M} {error : E} {used : Nat}

theorem scan_more (h : F.head xs = .more) : F.scan xs = ([], none) := by
  rw [scan]; split <;> simp_all

theorem scan_fail (h : F.head xs = .fail error) : F.scan xs = ([], some error) := by
  rw [scan]; split <;> simp_all

theorem scan_skip (h : F.head xs = .skip used) : F.scan xs = F.scan (xs.drop used) := by
  rw [scan]; split <;> simp_all

theorem scan_emit (h : F.head xs = .emit message used) :
    F.scan xs = (message :: (F.scan (xs.drop used)).1, (F.scan (xs.drop used)).2) := by
  rw [scan]; split <;> simp_all

/-- A verdict reached on what has arrived also holds with `ys` behind it. -/
theorem head_append_eq {v : Verdict M E} (h : F.head xs = v) (hv : v ≠ .more) :
    F.head (xs ++ ys) = v := by
  rw [F.head_append xs ys (h ▸ hv), h]

variable {zs : List β} {messages later : List M}

namespace Reads

theorem append_right (h : F.Reads xs messages ys) (zs : List β) :
    F.Reads (xs ++ zs) messages (ys ++ zs) := by
  induction h with
  | stop xs => exact .stop _
  | skip hv _ ih =>
    refine .skip (head_append_eq hv nofun) ?_
    rwa [List.drop_append_of_le_length (F.skip_used _ _ hv).2]
  | emit hv _ ih =>
    refine .emit (head_append_eq hv nofun) ?_
    rwa [List.drop_append_of_le_length (F.emit_used _ _ _ hv).2]

theorem trans (h : F.Reads xs messages ys) (hl : F.Reads ys later zs) :
    F.Reads xs (messages ++ later) zs := by
  induction h with
  | stop xs => exact hl
  | skip hv _ ih => exact .skip hv (ih hl)
  | emit hv _ ih => exact .emit hv (ih hl)

theorem scan_eq (h : F.Reads xs messages ys) :
    F.scan xs = (messages ++ (F.scan ys).1, (F.scan ys).2) := by
  induction h with
  | stop xs => rfl
  | skip hv _ ih => rw [scan_skip hv, ih]
  | emit hv _ ih => rw [scan_emit hv, ih, List.cons_append]

theorem length_le (h : F.Reads xs messages ys) : ys.length + messages.length ≤ xs.length := by
  induction h with
  | stop xs => exact Nat.le_refl _
  | skip hv _ ih =>
    rw [List.length_drop] at ih
    omega
  | emit hv _ ih =>
    have hu := F.emit_used _ _ _ hv
    rw [List.length_drop] at ih
    rw [List.length_cons]
    omega

theorem rest_eq (h : F.Reads xs messages ys) (hm : F.head ys = .more)
    (hl : F.Reads xs later zs) (hz : F.head zs = .more) : ys = zs := by
  induction h generalizing later with
  | stop xs =>
    cases hl with
    | stop => rfl
    | skip hv => rw [hm] at hv; cases hv
    | emit hv => rw [hm] at hv; cases hv
  | skip hv _ ih =>
    cases hl with
    | stop => rw [hz] at hv; cases hv
    | skip hw hl => rw [hv] at hw; cases hw; exact ih hm hl
    | emit hw => rw [hv] at hw; cases hw
  | emit hv _ ih =>
    cases hl with
    | stop => rw [hz] at hv; cases hv
    | skip hw => rw [hv] at hw; cases hw
    | emit hw hl => rw [hv] at hw; cases hw; exact ih hm hl

end Reads

end Framing

/-- A decoder that is fed portions of the stream and asked for one message at a time. -/
structure Decoder (D β M E : Type) where
  feed : D → List β → D
  decode : D → Except E (Option M) × D

structure Reader (D M E : Type) where
  decoder : D
  messages : List M
  error : Option E

inductive ReaderOp (β : Type)
  | feed (data : List β)
  | decode

def ReaderOp.data {β : Type} : ReaderOp β → List β
  | feed data => data
  | decode => []

namespace Reader

variable {D β M E : Type}

def new (decoder : D) : Reader D M E := ⟨decoder, [], none⟩

def decode (dec : Decoder D β M E) (r : Reader D M E) : Reader D M E :=
  match dec.decode r.decoder with
  | (.ok none, decoder) => { r with decoder := decoder }
  | (.ok (some message), decoder) =>
    { r with decoder := decoder, messages := r.messages ++ [message] }
  | (.error error, decoder) => { r with decoder := decoder, error := some error }

def step (dec : Decoder D β M E) (r : Reader D M E) (op : ReaderOp β) : Reader D M E :=
  if r.error.isSome then r
  else match op with
    | .feed data => { r with decoder := dec.feed r.decoder data }
    | .decode => r.decode dec

def drain (dec : Decoder D β M E) : Nat → Reader D M E → Reader D M E
  | 0, r => r
  | fuel + 1, r =>
    if r.error.isSome then r
    else match dec.decode r.decoder with
      | (.ok (some _), _) => drain dec fuel (r.decode dec)
      | _ => r.decode dec

end Reader

/-- What ties a decoder to a framing: the bytes it still holds, and what one call does to
them. -/
structure Decodes {D β M E : Type} (F : Framing β M E) (dec : Decoder D β M E) where
  pending : D → List β
  Valid : D → Prop
  feed_spec : ∀ d data, Valid d → Valid (dec.feed d data) ∧ pending (dec.feed d data) = pending d ++ data
  none_spec : ∀ d d', Valid d → dec.decode d = (.ok none, d') →
    Valid d' ∧ F.head (pending d') = .more ∧ F.Reads (pending d) [] (pending d')
  some_spec : ∀ d d' message, Valid d → dec.decode d = (.ok (some message), d') →
    Valid d' ∧ F.Reads (pending d) [message] (pending d')
  error_spec : ∀ d d' error, Valid d → dec.decode d = (.error error, d') →
    ∃ rest, F.Reads (pending d) [] rest ∧ F.head rest = .fail error

namespace Decodes

variable {D β M E : Type} {F : Framing β M E} {dec : Decoder D β M E} (R : Decodes F dec)
variable {fed : List β} {r : Reader D M E}

/-- Of the bytes that have arrived the reader has read the front, or it has stopped where they
are wrong. -/
def Tracks (fed : List β) (r : Reader D M E) : Prop :=
  match r.error with
  | none => R.Valid r.decoder ∧ F.Reads fed r.messages (R.pending r.decoder)
  | some error => ∃ rest, F.Reads fed r.messages rest ∧ F.head rest = .fail error

theorem tracks_new {d : D} (hv : R.Valid d) : R.Tracks (R.pending d) (Reader.new d) :=
  ⟨hv, .stop _⟩

theorem tracks_decode (h : R.Tracks fed r) (he : r.error = none) :
    R.Tracks fed (r.decode dec) := by
  simp only [Tracks, he] at h
  obtain ⟨hv, hreads⟩ := h
  rcases hd : dec.decode r.decoder with ⟨_ | _ | message, d'⟩
  · obtain ⟨rest, hrest, hfail⟩ := R.error_spec _ _ _ hv hd
    have hread := hreads.trans hrest
    rw [List.append_nil] at hread
    simpa [Reader.decode, hd, Tracks] using ⟨rest, hread, hfail⟩
  · obtain ⟨hv', -, hrest⟩ := R.none_spec _ _ hv hd
    have hread := hreads.trans hrest
    rw [List.append_nil] at hread
    simpa [Reader.decode, hd, Tracks, he] using ⟨hv', hread⟩
  · obtain ⟨hv', hrest⟩ := R.some_spec _ _ _ hv hd
    simpa [Reader.decode, hd, Tracks, he] using ⟨hv', hreads.trans hrest⟩

theorem tracks_step (h : R.Tracks fed r) (op : ReaderOp β) :
    R.Tracks (fed ++ op.data) (r.step dec op) := by
  cases he : r.error with
  | some error =>
    simp only [Tracks, he] at h
    obtain ⟨rest, hreads, hfail⟩ := h
    simpa [Reader.step, he, Tracks] using
      ⟨rest ++ op.data, hreads.append_right _, Framing.head_append_eq hfail nofun⟩
  | none =>
    cases op with
    | feed data =>
      simp only [Tracks, he] at h
      obtain ⟨hv, hreads⟩ := h
      obtain ⟨hv', hp⟩ := R.feed_spec r.decoder data hv
      simpa [Reader.step, he, Tracks, hp] using ⟨hv', hreads.append_right data⟩
    | decode => simpa [Reader.step, he, ReaderOp.data] using R.tracks_decode h he

theorem tracks_exec (h : R.Tracks fed r) (ops : List (ReaderOp β)) :
    R.Tracks (fed ++ ops.flatMap ReaderOp.data) (exec (Reader.step dec) r ops) := by
  induction ops generalizing fed r with
  | nil => simpa using h
  | cons op ops ih =>
    have hs := ih (R.tracks_step h op)
    rwa [List.append_assoc, ← List.flatMap_cons] at hs

theorem tracks_drain {fuel : Nat} (h : R.Tracks fed r)
    (hf : (R.pending r.decoder).length < fuel) :
    R.Tracks fed (r.drain dec fuel) ∧ ((r.drain dec fuel).error = none →
      ∃ d, R.Valid d ∧ dec.decode d = (.ok none, (r.drain dec fuel).decoder)) := by
  induction fuel generalizing r with
  | zero => exact absurd hf (Nat.not_lt_zero _)
  | succ fuel ih =>
    cases he : r.error with
    | some error => simpa [Reader.drain, he] using h
    | none =>
      have hs := R.tracks_decode h he
      simp only [Tracks, he] at h
      rcases hd : dec.decode r.decoder with ⟨_ | _ | message, d'⟩
      · simpa [Reader.drain, Reader.decode, he, hd] using hs
      · refine ⟨by simpa [Reader.drain, Reader.decode, he, hd] using hs, fun _ => ?_⟩
        exact ⟨r.decoder, h.1, by simp [Reader.drain, Reader.decode, he, hd]⟩
      · have hlen := (R.some_spec _ _ _ h.1 hd).2.length_le
        have hdec : (r.decode dec).decoder = d' := by simp [Reader.decode, hd]
        rw [List.length_singleton] at hlen
        simpa [Reader.drain, he, hd] using ih hs (by rw [hdec]; omega)

/-- What a drained reader has read is what the bytes mean. -/
theorem scan_drain {fuel : Nat} (h : R.Tracks fed r)
    (hf : (R.pending r.decoder).length < fuel) :
    ((r.drain dec fuel).messages, (r.drain dec fuel).error) = F.scan fed := by
  obtain ⟨ht, hlast⟩ := R.tracks_drain h hf
  cases he : (r.drain dec fuel).error with
  | some error =>
    simp only [Tracks, he] at ht
    obtain ⟨rest, hreads, hfail⟩ := ht
    rw [hreads.scan_eq, Framing.scan_fail hfail, List.append_nil]
  | none =>
    obtain ⟨d, hv, hd⟩ := hlast he
    simp only [Tracks, he] at ht
    rw [ht.2.scan_eq, Framing.scan_more (R.none_spec _ _ hv hd).2.1, List.append_nil]

end Decodes
end Tortor.Lib
