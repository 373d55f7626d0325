import Tortor.Net.Pex
import Tortor.Net.Routing

/-! Messages of the DHT protocol, the nodes they carry and the addresses these may have. -/

namespace Tortor.Net

open Tortor.Core (SocketAddr)

structure QueryArgs where
  id : List UInt8
  impliedPort : Option UInt8
  infoHash : List UInt8
  port : Option Nat
  target : List UInt8
  token : List UInt8
  deriving DecidableEq

structure ResponseArgs where
  id : List UInt8
  nodes : List UInt8
  nodes6 : List UInt8
  token : List UInt8
  values : List (List UInt8)
  deriving DecidableEq

/-- The contents of `e`, a code and a text, are read by nobody and left out. -/
structure KrpcMessage where
  a : Option QueryArgs
  q : Option String
  r : Option ResponseArgs
  t : List UInt8
  y : String
  deriving DecidableEq

def NodeId.ofBytes (bytes : List UInt8) : Option NodeId :=
  if h : bytes.length = 20 then some ⟨bytes, h⟩ else none

def decodeNodes (width : Nat) (decodeAddr : List UInt8 → List SocketAddr) (bytes : List UInt8) :
    List Contact :=
  (chunksExact (20 + width) bytes).filterMap fun chunk => do
    let addr ← (decodeAddr (chunk.drop 20)).head?
    let id ← NodeId.ofBytes (chunk.take 20)
    return ⟨id, addr⟩

def decodeCompactNodes (bytes : List UInt8) : List Contact := decodeNodes 6 decodeCompactIpv4 bytes

def decodeCompactNodes6 (bytes : List UInt8) : List Contact :=
  decodeNodes 18 decodeCompactIpv6 bytes

/-- Rejects addresses no real node can have (port 0, 0.0.0.0, multicast). -/
def isValidNodeAddr : SocketAddr → Bool
  | .v4 ip port => port != 0 && ip != 0 && ip.toNat / 2 ^ 28 != 0xe
  | .v6 ip port => port != 0 && ip != 0 && ip.toNat / 2 ^ 120 != 0xff

/-- The order that is derived for `[u8; 20]` compares the ids as numbers. -/
def NodeId.key (self : NodeId) : Nat := beNat self.bytes

theorem beNat_lt (bytes : List UInt8) : beNat bytes < 256 ^ bytes.length := by
  induction bytes with
  | nil => exact Nat.one_pos
  | cons byte rest ih =>
    have hbyte := byte.toNat_lt
    rw [beNat, List.length_cons, Nat.pow_succ]
    calc
      byte.toNat * 256 ^ rest.length + beNat rest
        < byte.toNat * 256 ^ rest.length + 256 ^ rest.length := Nat.add_lt_add_left ih _
      _ = (byte.toNat + 1) * 256 ^ rest.length := by rw [Nat.add_mul, Nat.one_mul]
      _ ≤ 256 * 256 ^ rest.length := Nat.mul_le_mul_right _ hbyte
      _ = 256 ^ rest.length * 256 := Nat.mul_comm _ _

theorem beNat_inj {xs ys : List UInt8} (hlen : xs.length = ys.length) (h : beNat xs = beNat ys) :
    xs = ys := by
  induction xs generalizing ys with
  | nil => exact (List.length_eq_zero_iff.mp hlen.symm).symm
  | cons x xs ih =>
    cases ys with
    | nil => cases hlen
    | cons y ys =>
      have hlen' : xs.length = ys.length := Nat.succ.inj hlen
      rw [beNat, beNat, hlen'] at h
      have hx := beNat_lt xs
      have hy := beNat_lt ys
      rw [hlen'] at hx
      have hhead : x.toNat = y.toNat := by
        have hdx := Nat.mul_add_div (Nat.pow_pos (by decide) : 0 < 256 ^ ys.length) x.toNat (beNat xs)
        have hdy := Nat.mul_add_div (Nat.pow_pos (by decide) : 0 < 256 ^ ys.length) y.toNat (beNat ys)
        rw [Nat.div_eq_of_lt hx, Nat.add_zero, Nat.mul_comm] at hdx
        rw [Nat.div_eq_of_lt hy, Nat.add_zero, Nat.mul_comm] at hdy
        rw [← hdx, ← hdy, h]
      rw [hhead] at h
      rw [UInt8.toNat_inj.mp hhead, ih hlen' (Nat.add_left_cancel h)]

theorem xorBytes_inj {xs ys zs : List UInt8} (hx : xs.length = zs.length)
    (hy : ys.length = zs.length) (h : xorBytes xs zs = xorBytes ys zs) : xs = ys := by
  induction zs generalizing xs ys with
  | nil => rw [List.length_eq_zero_iff.mp hx, List.length_eq_zero_iff.mp hy]
  | cons z zs ih =>
    cases xs with
    | nil => cases hx
    | cons x xs =>
      cases ys with
      | nil => cases hy
      | cons y ys =>
        rw [xorBytes, xorBytes, List.zipWith_cons_cons, List.zipWith_cons_cons,
          List.cons.injEq] at h
        rw [(UInt8.xor_left_inj z).mp h.1, ih (Nat.succ.inj hx) (Nat.succ.inj hy) h.2]

def NodeId.distance (infoHash id : NodeId) : Nat := (id.xor infoHash).key

theorem NodeId.distance_inj {infoHash a b : NodeId}
    (h : infoHash.distance a = infoHash.distance b) : a = b := by
  have hxor := beNat_inj ((a.xor infoHash).size.trans (b.xor infoHash).size.symm) h
  have hbytes := xorBytes_inj (a.size.trans infoHash.size.symm) (b.size.trans infoHash.size.symm) hxor
  cases a
  cases b
  exact NodeId.mk.injEq .. ▸ hbytes

end Tortor.Net
