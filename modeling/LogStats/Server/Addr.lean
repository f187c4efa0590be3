import LogStats.Library.Bits
import Mathlib.Data.UInt

/-! # The addresses of zip_addr.c

An address is the row of its bytes as they are sent. The host is little-endian. A shift
by the width of its operand or more, which C leaves undefined, and the reading of a byte
that the address does not have are `none`.
-/
namespace LogStats

inductive AddrType where
  | ipv4
  | ipv6

deriving instance DecidableEq for AddrType

/-- The union of `addr_t`, without ports. -/
inductive AddrBytes where
  | v4 (sAddr : Vector UInt8 4)
  | v6 (s6Addr : Vector UInt8 16)

structure Addr where
  addr : AddrBytes
  mask : Int32

def Addr.addrType (addr : Addr) : AddrType :=
  match addr.addr with
  | .v4 _ => .ipv4
  | .v6 _ => .ipv6

def ntohs (x : UInt16) : UInt16 := x <<< 8 ||| x >>> 8

def ntohl (x : UInt32) : UInt32 := x <<< 24 ||| (x <<< 8 &&& (0xff0000 : UInt32)) ||| (x >>> 8 &&& (0xff00 : UInt32)) ||| x >>> 24

/-- The word that the host reads from four bytes. -/
def loadWord (b : Vector UInt8 4) : UInt32 :=
  b[0].toUInt32 ||| b[1].toUInt32 <<< 8 ||| b[2].toUInt32 <<< 16 ||| b[3].toUInt32 <<< 24

/-- `1 << n` of an int. -/
def shiftOne (n : ℤ) : Option UInt32 := if 0 ≤ n ∧ n < 32 then some (1 <<< UInt32.ofNat n.toNat) else none

def sameNetworkV4 (a b : Vector UInt8 4) (mask : ℤ) : Option Bool :=
  let mask := if 32 < mask then 32 else mask
  (shiftOne (32 - mask)).map fun s => (ntohl (loadWord a) &&& -s) == (ntohl (loadWord b) &&& -s)

/-- `ntohs` of a byte, stored into a byte. -/
def addrSection (byte : UInt8) : UInt8 := (ntohs byte.toUInt16).toUInt8

/-- The loop over the sections, from section `i`. -/
def sameNetworkV6 (a b : Vector UInt8 16) (mask : ℤ) (i : ℕ) : Option Bool :=
  if 0 ≤ mask then
    a[i]?.bind fun x => b[i]?.bind fun y =>
      if mask < 8 then
        let m : UInt16 := -(1 <<< UInt16.ofNat (8 - mask).toNat)
        some (((addrSection x).toUInt16 &&& m) == ((addrSection y).toUInt16 &&& m))
      else if addrSection x ≠ addrSection y then some false
      else sameNetworkV6 a b (mask - 8) (i + 1)
  else some true
termination_by mask.toNat

def addrIsInSameNetwork (addr1 addr2 : Addr) : Option Bool :=
  let mask := (if addr1.mask < addr2.mask then addr1.mask else addr2.mask).toInt
  let mask := if mask < 0 then 0 else mask
  match addr1.addr, addr2.addr with
  | .v4 a, .v4 b => sameNetworkV4 a b mask
  | .v6 a, .v6 b => sameNetworkV6 a b (if 128 < mask then 128 else mask) 0
  | _, _ => some false

/-! ## What the function is for -/

def Addr.bits (addr : Addr) : List Bool :=
  match addr.addr with
  | .v4 a => byteBits a.toList
  | .v6 a => byteBits a.toList

/-- The smaller of the two masks, as a number of bits that the address has. -/
def prefixLength (addr1 addr2 : Addr) : ℕ :=
  (max 0 (min (min addr1.mask.toInt addr2.mask.toInt) addr1.bits.length)).toNat

def SameNetwork (addr1 addr2 : Addr) : Prop :=
  addr1.addrType = addr2.addrType ∧
    addr1.bits.take (prefixLength addr1 addr2) = addr2.bits.take (prefixLength addr1 addr2)

/-! ## IPv4 -/

theorem toList_four (b : Vector UInt8 4) : b.toList = [b[0],b[1],b[2],b[3]] := by
  apply List.ext_getElem
  · simp
  · intro i hi _
    have hlt : i < 4 := by simpa using hi
    interval_cases i <;> simp

/-- The word in host order has the bits in the order in which they are sent. -/
theorem msbBits_ntohl (b : Vector UInt8 4) : msbBits (ntohl (loadWord b)).toBitVec = byteBits b.toList := by
  rw [toList_four]
  simp only [byteBits, List.flatMap_cons, List.flatMap_nil, msbBits]
  apply List.ext_getElem
  · simp
  · intro i hi _
    have hlt : i < 32 := by simpa using hi
    interval_cases i <;> simp [ntohl, loadWord, BitVec.getMsbD]

theorem sameNetworkV4_spec {mask : ℤ} (h : 0 < mask) (a b : Vector UInt8 4) : sameNetworkV4 a b mask =
    some (decide ((byteBits a.toList).take (min mask 32).toNat = (byteBits b.toList).take (min mask 32).toNat)) := by
  have hmask : (if 32 < mask then 32 else mask) = min mask 32 := by
    split <;> omega
  have hn : (32 - min mask 32).toNat < 32 := by omega
  have hone : (-(1 <<< UInt32.ofNat (32 - min mask 32).toNat) : UInt32).toBitVec =
      highMask 32 (32 - min mask 32).toNat := by
    simp [highMask, BitVec.twoPow, Nat.mod_eq_of_lt hn]
  have hlen : 32 - (32 - min mask 32).toNat = (min mask 32).toNat := by omega
  have hiff := and_highMask_eq_iff (x := (ntohl (loadWord a)).toBitVec)
    (y := (ntohl (loadWord b)).toBitVec) hn
  rw [hlen, msbBits_ntohl, msbBits_ntohl] at hiff
  simp only [sameNetworkV4, hmask, shiftOne]
  rw [if_pos (by omega), Option.map_some]
  congr 1
  rw [Bool.eq_iff_iff, beq_iff_eq, decide_eq_true_iff, ← hiff, ← hone, ← UInt32.toBitVec_inj,
    UInt32.toBitVec_and, UInt32.toBitVec_and]

/-- Without a bit to compare the shift is by 32. -/
theorem sameNetworkV4_none {mask : ℤ} (h : mask ≤ 0) (a b : Vector UInt8 4) : sameNetworkV4 a b mask = none := by
  simp only [sameNetworkV4, shiftOne]
  rw [if_neg (show ¬32 < mask by omega), if_neg (by omega), Option.map_none]

/-! ## IPv6 -/

/-- The two low bytes are exchanged, and the low one of them was the byte. -/
theorem addrSection_zero (byte : UInt8) : addrSection byte = 0 := by
  apply UInt8.toBitVec_inj.mp
  ext i hi
  simp [addrSection, ntohs]

/-- All sections are equal, and there is one more of them than there are bytes in the mask. -/
theorem sameNetworkV6_eq (a b : Vector UInt8 16) {mask : ℤ} (h : 0 ≤ mask) (i : ℕ) :
    sameNetworkV6 a b mask i = if i + mask.toNat / 8 < 16 then some true else none := by
  induction hn : mask.toNat using Nat.strongRecOn generalizing mask i with
  | ind n ih =>
    rw [sameNetworkV6, if_pos h]
    by_cases hi : i < 16
    · rw [Vector.getElem?_eq_getElem hi, Vector.getElem?_eq_getElem hi]
      simp only [Option.bind_some, addrSection_zero, ne_eq, not_true_eq_false, if_false]
      by_cases hlast : mask < 8
      · rw [if_pos hlast, if_pos (by omega), beq_self_eq_true]
      · rw [if_neg hlast, ih (mask - 8).toNat (by omega) (by omega) (i + 1) rfl]
        have hturn : i + 1 + (mask - 8).toNat / 8 = i + n / 8 := by omega
        rw [hturn]
    · rw [Vector.getElem?_eq_none (by omega), if_neg (by omega)]
      rfl

/-! ## Both families -/

/-- Of IPv4 addresses a bit must be compared; IPv6 addresses must not be compared as a whole, and
must be in the same network. -/
def RightlyCompared (addr1 addr2 : Addr) : Prop :=
  addr1.addrType ≠ addr2.addrType ∨
    (addr1.addrType = .ipv4 ∧ 0 < min addr1.mask.toInt addr2.mask.toInt) ∨
    (addr1.addrType = .ipv6 ∧ min addr1.mask.toInt addr2.mask.toInt < 128 ∧ SameNetwork addr1 addr2)

theorem addrIsInSameNetwork_eq (addr1 addr2 : Addr) : addrIsInSameNetwork addr1 addr2 =
    match addr1.addr, addr2.addr with
    | .v4 a, .v4 b => sameNetworkV4 a b (max 0 (min addr1.mask.toInt addr2.mask.toInt))
    | .v6 a, .v6 b => sameNetworkV6 a b (min (max 0 (min addr1.mask.toInt addr2.mask.toInt)) 128) 0
    | _, _ => some false := by
  have hclamp : (if min addr1.mask.toInt addr2.mask.toInt < 0 then 0 else min addr1.mask.toInt addr2.mask.toInt) =
      max 0 (min addr1.mask.toInt addr2.mask.toInt) := by
    split <;> omega
  have hcap : (if 128 < max 0 (min addr1.mask.toInt addr2.mask.toInt) then 128
      else max 0 (min addr1.mask.toInt addr2.mask.toInt)) = min (max 0 (min addr1.mask.toInt addr2.mask.toInt)) 128 := by
    split <;> omega
  simp only [addrIsInSameNetwork, toInt_smaller, hclamp, hcap]

theorem sameNetwork_v4_iff (a b : Vector UInt8 4) (mask1 mask2 : Int32) :
    (∃ same, addrIsInSameNetwork ⟨.v4 a,mask1⟩ ⟨.v4 b,mask2⟩ = some same ∧
      (same = true ↔ SameNetwork ⟨.v4 a,mask1⟩ ⟨.v4 b,mask2⟩)) ↔ 0 < min mask1.toInt mask2.toInt := by
  rw [addrIsInSameNetwork_eq]
  dsimp only
  rcases Int.lt_or_le 0 (min mask1.toInt mask2.toInt) with hpos | hneg
  · rw [sameNetworkV4_spec (by omega)]
    refine iff_of_true ⟨_,rfl,?_⟩ hpos
    have hlen : prefixLength ⟨.v4 a,mask1⟩ ⟨.v4 b,mask2⟩ =
        (min (max 0 (min mask1.toInt mask2.toInt)) 32).toNat := by
      simp only [prefixLength, Addr.bits, length_byteBits, Vector.length_toList]
      omega
    simp only [SameNetwork, hlen, Addr.addrType, Addr.bits, true_and, decide_eq_true_eq]
  · rw [sameNetworkV4_none (by omega)]
    apply iff_of_false
    · rintro ⟨same,hsome,-⟩
      cases hsome
    · exact not_lt.mpr hneg

theorem sameNetwork_v6_iff (a b : Vector UInt8 16) (mask1 mask2 : Int32) :
    (∃ same, addrIsInSameNetwork ⟨.v6 a,mask1⟩ ⟨.v6 b,mask2⟩ = some same ∧
      (same = true ↔ SameNetwork ⟨.v6 a,mask1⟩ ⟨.v6 b,mask2⟩)) ↔
      min mask1.toInt mask2.toInt < 128 ∧ SameNetwork ⟨.v6 a,mask1⟩ ⟨.v6 b,mask2⟩ := by
  rw [addrIsInSameNetwork_eq]
  dsimp only
  rw [sameNetworkV6_eq a b (by omega)]
  rcases Int.lt_or_le (min mask1.toInt mask2.toInt) 128 with hlt | hge
  · rw [if_pos (by omega)]
    constructor
    · rintro ⟨same,hsome,hiff⟩
      cases hsome
      exact ⟨hlt,hiff.mp rfl⟩
    · rintro ⟨-,hsame⟩
      exact ⟨true,rfl,iff_of_true rfl hsame⟩
  · rw [if_neg (by omega)]
    apply iff_of_false
    · rintro ⟨same,hsome,-⟩
      cases hsome
    · rintro ⟨hlt,-⟩
      exact absurd hlt (not_lt.mpr hge)

/-- Addresses of two families are never in one network. -/
theorem sameNetwork_differ {addr1 addr2 : Addr} (h : addr1.addrType ≠ addr2.addrType) :
    addrIsInSameNetwork addr1 addr2 = some false := by
  rw [addrIsInSameNetwork_eq]
  rcases addr1 with ⟨a | a,mask1⟩ <;> rcases addr2 with ⟨b | b,mask2⟩
  · exact absurd rfl h
  · rfl
  · rfl
  · exact absurd rfl h

theorem addrIsInSameNetwork_iff (addr1 addr2 : Addr) :
    (∃ same, addrIsInSameNetwork addr1 addr2 = some same ∧ (same = true ↔ SameNetwork addr1 addr2)) ↔
      RightlyCompared addr1 addr2 := by
  by_cases htype : addr1.addrType = addr2.addrType
  · obtain ⟨a | a,mask1⟩ := addr1 <;> obtain ⟨b | b,mask2⟩ := addr2
    · rw [sameNetwork_v4_iff]
      simp [RightlyCompared, Addr.addrType]
    · cases htype
    · cases htype
    · rw [sameNetwork_v6_iff]
      simp [RightlyCompared, Addr.addrType]
  · refine iff_of_true ⟨false,sameNetwork_differ htype,?_⟩ (Or.inl htype)
    exact iff_of_false Bool.false_ne_true (fun h => htype h.1)

/-- Two IPv6 addresses that differ in their first bit pass for one network of 64 bits; a comparison of
all their bits reads a byte too many, and a mask of 0 for IPv4 shifts by 32. -/
theorem addrIsInSameNetwork_fails :
    let low : Addr := ⟨.v6 (Vector.replicate 16 0),64⟩
    let high : Addr := ⟨.v6 (Vector.replicate 16 255),64⟩
    let host : Addr := ⟨.v6 (Vector.replicate 16 0),128⟩
    let any : Addr := ⟨.v4 (Vector.replicate 4 0),0⟩
    (addrIsInSameNetwork low high = some true ∧ ¬SameNetwork low high) ∧
      addrIsInSameNetwork host host = none ∧ addrIsInSameNetwork any any = none := by
  intro low high host any
  refine ⟨⟨?_,?_⟩,?_,?_⟩
  · rw [addrIsInSameNetwork_eq]
    exact sameNetworkV6_eq _ _ (show (0 : ℤ) ≤ 64 by decide) 0
  · intro h
    exact absurd h.2 (by decide +kernel)
  · rw [addrIsInSameNetwork_eq]
    exact sameNetworkV6_eq _ _ (show (0 : ℤ) ≤ 128 by decide) 0
  · rw [addrIsInSameNetwork_eq]
    exact sameNetworkV4_none (by decide) _ _

end LogStats
