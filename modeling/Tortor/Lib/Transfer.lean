import Mathlib.Data.List.GetD
import Mathlib.Tactic.Common
import Tortor.Lib.FileStore

/-! Files read and written through calls that may transfer less than they are asked for.  As long
as every call moves something, going on until all is done comes to one whole transfer. -/

namespace Tortor.Lib

/-- How much one call transfers at an offset when so much is left to do. -/
structure Transfer where
  size : Nat → Nat → Nat
  pos : ∀ offset left, 0 < left → 0 < size offset left
  le : ∀ offset left, size offset left ≤ left

def Transfer.upTo (n : Nat) : Transfer :=
  ⟨fun _ left => min (n + 1) left, fun _ left h => by omega, fun _ left => Nat.min_le_right _ left⟩

namespace Inode

attribute [ext] Inode

/-- One write: the number of bytes that got through, and the file after it. -/
def writeSome (t : Transfer) (self : Inode) (pos : Nat) (buf : List UInt8) : Nat × Inode :=
  (t.size pos buf.length, self.writeAt pos (buf.take (t.size pos buf.length)))

/-- One read; it ends at the end of the file. -/
def readSome (t : Transfer) (self : Inode) (pos len : Nat) : List UInt8 :=
  (List.range (t.size pos (min len (self.len - pos)))).map fun j => self.content (pos + j)

def writeAll (t : Transfer) : (fuel : Nat) → Nat → List UInt8 → Inode → Option Inode
  | 0, _, _, _ => none
  | fuel + 1, pos, buf, self =>
    if buf.isEmpty then some self
    else
      let (written, self) := self.writeSome t pos buf
      if written = 0 then none else writeAll t fuel (pos + written) (buf.drop written) self

def readExact (t : Transfer) (self : Inode) : (fuel : Nat) → Nat → Nat → Option (List UInt8)
  | 0, _, _ => none
  | fuel + 1, pos, len =>
    if len = 0 then some []
    else
      let bytes := self.readSome t pos len
      if bytes.isEmpty then none
      else (readExact t self fuel (pos + bytes.length) (len - bytes.length)).map (bytes ++ ·)

variable {t : Transfer} {self : Inode} {pos len : Nat} {buf : List UInt8}

theorem writeAt_append (self : Inode) (pos : Nat) (front back : List UInt8) :
    (self.writeAt pos front).writeAt (pos + front.length) back =
      self.writeAt pos (front ++ back) := by
  have hcontent (y : Nat) : ((self.writeAt pos front).writeAt (pos + front.length) back).content y =
      (self.writeAt pos (front ++ back)).content y := by
    simp only [writeAt, List.length_append]
    by_cases hback : pos + front.length ≤ y ∧ y < pos + front.length + back.length
    · rw [if_pos hback, if_pos ⟨by omega, by omega⟩, List.getD_append_right _ _ _ _ (by omega)]
      congr 1
      omega
    · rw [if_neg hback]
      by_cases hfront : pos ≤ y ∧ y < pos + front.length
      · rw [if_pos hfront, if_pos ⟨hfront.1, by omega⟩, List.getD_append _ _ _ _ (by omega)]
      · rw [if_neg hfront, if_neg (by omega)]
  have hwritten (y : Nat) : ((self.writeAt pos front).writeAt (pos + front.length) back).written y =
      (self.writeAt pos (front ++ back)).written y := by
    simp only [writeAt, List.length_append]
    rw [← Bool.or_assoc]
    congr 1
    rw [Bool.eq_iff_iff, Bool.or_eq_true, decide_eq_true_eq, decide_eq_true_eq, decide_eq_true_eq]
    omega
  have hlen : ((self.writeAt pos front).writeAt (pos + front.length) back).len =
      (self.writeAt pos (front ++ back)).len := by
    simp only [writeAt, List.length_append]
    omega
  exact Inode.ext hlen (funext hcontent) rfl (funext hwritten)

theorem writeAt_nil (h : pos ≤ self.len) : self.writeAt pos [] = self := by
  have hnone (y : Nat) : ¬ (pos ≤ y ∧ y < pos + ([] : List UInt8).length) := by
    rw [List.length_nil]
    omega
  refine Inode.ext ?_ (funext fun y => if_neg (hnone y)) rfl (funext fun y => ?_)
  · exact Nat.max_eq_left h
  · simp only [writeAt, hnone y, decide_false, Bool.false_or]

theorem writeAll_eq {fuel : Nat} (hpos : pos ≤ self.len) (hfuel : buf.length < fuel) :
    self.writeAll t fuel pos buf = some (self.writeAt pos buf) := by
  induction fuel generalizing self pos buf with
  | zero => omega
  | succ fuel ih =>
    cases buf with
    | nil => rw [writeAt_nil hpos]; rfl
    | cons byte rest =>
      obtain ⟨n, hn⟩ : ∃ n, t.size pos (byte :: rest).length = n := ⟨_, rfl⟩
      have hmoved : 0 < n := hn ▸ t.pos pos _ (Nat.succ_pos _)
      have hle : n ≤ (byte :: rest).length := hn ▸ t.le pos _
      have htake : ((byte :: rest).take n).length = n := by
        rw [List.length_take]
        omega
      have hreach : pos + n ≤ (self.writeAt pos ((byte :: rest).take n)).len := by
        simp only [writeAt, htake]
        omega
      simp only [writeAll, List.isEmpty_cons, Bool.false_eq_true, if_false, writeSome, hn,
        Nat.pos_iff_ne_zero.mp hmoved]
      rw [ih hreach (by rw [List.length_drop]; omega)]
      have hjoin := writeAt_append self pos ((byte :: rest).take n) ((byte :: rest).drop n)
      rw [htake, List.take_append_drop] at hjoin
      rw [hjoin]

theorem readAt_append {n : Nat} (hn : n ≤ len) (hlen : pos + len ≤ self.len) :
    self.readAt pos len = (self.readAt (pos + n) (len - n)).map
      (((List.range n).map fun j => self.content (pos + j)) ++ ·) := by
  obtain ⟨k, rfl⟩ := Nat.exists_eq_add_of_le hn
  rw [readAt, readAt, if_pos hlen, if_pos (by omega), Option.map_some, Nat.add_sub_cancel_left,
    List.range_add, List.map_append, List.map_map]
  simp only [Nat.add_assoc]
  rfl

theorem readExact_eq {fuel : Nat} (hlen : pos + len ≤ self.len) (hfuel : len < fuel) :
    self.readExact t fuel pos len = self.readAt pos len := by
  induction fuel generalizing pos len with
  | zero => omega
  | succ fuel ih =>
    rw [readExact]
    by_cases hzero : len = 0
    · rw [if_pos hzero, readAt, if_pos hlen, hzero]
      rfl
    · obtain ⟨n, hn⟩ : ∃ n, t.size pos (min len (self.len - pos)) = n := ⟨_, rfl⟩
      have hleft : min len (self.len - pos) = len := by omega
      have hmoved : 0 < n := hn ▸ t.pos pos _ (by omega)
      have hle : n ≤ len := by
        have hsize := t.le pos (min len (self.len - pos))
        omega
      have hbytes : self.readSome t pos len =
          (List.range n).map fun j => self.content (pos + j) := by
        rw [readSome, hn]
      have hsome : (self.readSome t pos len).isEmpty = false := by
        rw [hbytes, List.isEmpty_map, List.isEmpty_eq_false_iff, ne_eq, List.range_eq_nil]
        omega
      have hcount : (self.readSome t pos len).length = n := by
        rw [hbytes, List.length_map, List.length_range]
      simp only [hzero, if_false, hsome, Bool.false_eq_true, hcount]
      rw [ih (by omega) (by omega), readAt_append hle hlen, hbytes]

end Inode
end Tortor.Lib
