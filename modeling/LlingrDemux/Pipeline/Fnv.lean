import Mathlib.Algebra.Group.Nat.Defs
import Mathlib.Tactic.Common

/-!
# FNV-1a routing of partition keys

`fnv.HashIndex`: the 32-bit FNV-1a hash of a key's bytes under a bit mask.
-/

namespace LlingrDemux.Fnv

set_option autoImplicit false

def offsetBasis : UInt32 := 2166136261

def primeFactor : UInt32 := 16777619

/-- The loop over the bytes of a key. -/
def hash (h : UInt32) (bytes : List UInt8) : UInt32 :=
  bytes.foldl (fun h b => (h ^^^ b.toUInt32) * primeFactor) h

/-- `HashIndex` on the bytes of a key, which need not be text. -/
def hashIndexOf (bytes : List UInt8) (bitMask : UInt32) : UInt32 :=
  hash offsetBasis bytes &&& bitMask

def hashIndex (partitionKey : String) (bitMask : UInt32) : UInt32 :=
  hashIndexOf partitionKey.toUTF8.data.toList bitMask

theorem hashIndex_le (partitionKey : String) (bitMask : UInt32) :
    (hashIndex partitionKey bitMask).toNat ≤ bitMask.toNat := by
  rw [hashIndex, hashIndexOf, UInt32.toNat_and]
  exact Nat.and_le_right

/-- Under the mask of a power of two the index is the hash modulo that power. -/
theorem hashIndexOf_two_pow (bytes : List UInt8) {k : Nat} (hk : k < 32) :
    (hashIndexOf bytes (UInt32.ofNat (2 ^ k - 1))).toNat =
      (hash offsetBasis bytes).toNat % 2 ^ k := by
  have hpos : 0 < 2 ^ k := Nat.two_pow_pos k
  have hlt : 2 ^ k < 2 ^ 32 := Nat.pow_lt_pow_right (by decide) hk
  rw [hashIndexOf, UInt32.toNat_and, UInt32.toNat_ofNat', Nat.mod_eq_of_lt (by omega),
    Nat.and_two_pow_sub_one_eq_mod]

end LlingrDemux.Fnv
