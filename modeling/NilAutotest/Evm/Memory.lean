import Mathlib.Data.Nat.Digits.Lemmas
import Mathlib.Data.ZMod.Basic

/-!
# Memory and modular arithmetic of the virtual machine

Memory is addressed by bytes; a word is thirty-two of them, the most significant first.
Reading back a word that was stored gives the word, and a store is seen only by the loads
that overlap it. `ArrayAt` is the layout of a dynamic array: its length in the first word,
its elements in the following ones.
-/

namespace Evm

abbrev Word := BitVec 256

/-- `addmod(a, b, m)`: the sum is not truncated before it is reduced. -/
def addmod (a b m : Word) : Word :=
  if m = 0 then 0 else BitVec.ofNat 256 ((a.toNat + b.toNat) % m.toNat)

/-- `mulmod(a, b, m)`: the product is not truncated before it is reduced. -/
def mulmod (a b m : Word) : Word :=
  if m = 0 then 0 else BitVec.ofNat 256 (a.toNat * b.toNat % m.toNat)

/-- Memory, byte by byte; it starts out as zeros. -/
abbrev Memory := Nat → BitVec 8

namespace Memory

/-- The word stored from an address on. -/
def mload (m : Memory) (a : Word) : Word :=
  BitVec.ofNat 256 (Nat.ofDigits 256 ((List.range 32).map fun i => (m (a.toNat + (31 - i))).toNat))

/-- Store a word from an address on. -/
def mstore (m : Memory) (a v : Word) : Memory := fun i =>
  if a.toNat ≤ i ∧ i < a.toNat + 32 then
    BitVec.ofNat 8 (v.toNat / 256 ^ (31 - (i - a.toNat)))
  else m i

/-- Two memories differ in an interval at most. -/
def AgreeOutside (low high : Nat) (m m' : Memory) : Prop :=
  ∀ i, i < low ∨ high ≤ i → m' i = m i

theorem AgreeOutside.refl {low high : Nat} (m : Memory) : AgreeOutside low high m m :=
  fun _ _ => rfl

theorem AgreeOutside.trans {low high : Nat} {m m' m'' : Memory}
    (h : AgreeOutside low high m m') (h' : AgreeOutside low high m' m'') :
    AgreeOutside low high m m'' :=
  fun i outside => (h' i outside).trans (h i outside)

end Memory

/-- The digits of a number, least significant first, and the number they are read as. -/
theorem ofDigits_range (n k : Nat) :
    Nat.ofDigits 256 ((List.range k).map fun i => n / 256 ^ i % 256) = n % 256 ^ k := by
  induction k with
  | zero => simp [Nat.mod_one]
  | succ k ih =>
      rw [List.range_succ, List.map_append, Nat.ofDigits_append, ih]
      simp only [List.length_map, List.length_range, List.map_cons, List.map_nil,
        Nat.ofDigits_singleton]
      rw [Nat.mod_pow_succ]

theorem ofNat_ofDigits_range (v : Word) :
    BitVec.ofNat 256 (Nat.ofDigits 256 ((List.range 32).map fun i => v.toNat / 256 ^ i % 256)) =
      v := by
  have range : (256 : Nat) ^ 32 = 2 ^ 256 := by norm_num
  apply BitVec.eq_of_toNat_eq
  rw [ofDigits_range, BitVec.toNat_ofNat, range, Nat.mod_mod, Nat.mod_eq_of_lt v.isLt]

namespace Memory

variable {m m' : Memory} {a b v : Word}

/-- A load depends on its own thirty-two bytes. -/
theorem mload_congr (h : ∀ i, a.toNat ≤ i → i < a.toNat + 32 → m' i = m i) :
    m'.mload a = m.mload a := by
  have bytes : ((List.range 32).map fun i => (m' (a.toNat + (31 - i))).toNat) =
      (List.range 32).map fun i => (m (a.toNat + (31 - i))).toNat := by
    apply List.map_congr_left
    intro i hi
    have := List.mem_range.mp hi
    rw [h _ (by omega) (by omega)]
  rw [mload, mload, bytes]

@[simp] theorem mload_mstore_same : (m.mstore a v).mload a = v := by
  have bytes : ((List.range 32).map fun i => ((m.mstore a v) (a.toNat + (31 - i))).toNat) =
      (List.range 32).map fun i => v.toNat / 256 ^ i % 256 := by
    apply List.map_congr_left
    intro i hi
    have := List.mem_range.mp hi
    have index : 31 - (a.toNat + (31 - i) - a.toNat) = i := by omega
    rw [mstore, if_pos (by omega), index, BitVec.toNat_ofNat]
  rw [mload, bytes, ofNat_ofDigits_range]

theorem mload_mstore_of_apart (apart : a.toNat + 32 ≤ b.toNat ∨ b.toNat + 32 ≤ a.toNat) :
    (m.mstore a v).mload b = m.mload b := by
  apply mload_congr
  intro i _ _
  rw [mstore, if_neg (by omega)]

theorem agreeOutside_mstore {low high : Nat} (hlow : low ≤ a.toNat) (hhigh : a.toNat + 32 ≤ high) :
    AgreeOutside low high m (m.mstore a v) := by
  intro i outside
  rw [mstore, if_neg (by omega)]

theorem AgreeOutside.mload {low high : Nat} (h : AgreeOutside low high m m')
    (apart : a.toNat + 32 ≤ low ∨ high ≤ a.toNat) : m'.mload a = m.mload a :=
  mload_congr fun i _ _ => h i (by omega)

end Memory

/-- The address of an element of an array that fits. -/
theorem toNat_element_of_fits {a : Word} {k n : Nat} (fits : a.toNat + 32 + 32 * n ≤ 2 ^ 256)
    (hk : k < n) : (a + 0x20 + 0x20 * BitVec.ofNat 256 k).toNat = a.toNat + 32 + 32 * k := by
  have word : (0x20 : Word).toNat = 32 := rfl
  simp only [BitVec.toNat_add, BitVec.toNat_mul, BitVec.toNat_ofNat, word]
  omega

/-- A dynamic array lies in memory from an address on. -/
structure ArrayAt (m : Memory) (a : Word) (ws : List Word) : Prop where
  fits : a.toNat + 32 + 32 * ws.length ≤ 2 ^ 256
  length : m.mload a = BitVec.ofNat 256 ws.length
  elements : ∀ k (h : k < ws.length), m.mload (a + 0x20 + 0x20 * BitVec.ofNat 256 k) = ws[k]

namespace ArrayAt

variable {m m' : Memory} {a : Word} {ws : List Word}

/-- An array is not touched by stores into another interval. -/
theorem of_agreeOutside (h : ArrayAt m a ws) {low high : Nat}
    (agree : Memory.AgreeOutside low high m m')
    (apart : a.toNat + 32 + 32 * ws.length ≤ low ∨ high ≤ a.toNat) : ArrayAt m' a ws where
  fits := h.fits
  length := by
    rw [agree.mload (by omega), h.length]
  elements k hk := by
    have address := toNat_element_of_fits h.fits hk
    rw [agree.mload (by omega), h.elements k hk]

end ArrayAt

section Arithmetic

variable {m : Word}

theorem addmod_toNat (hm : m ≠ 0) (a b : Word) :
    (addmod a b m).toNat = (a.toNat + b.toNat) % m.toNat := by
  have positive : 0 < m.toNat := Nat.pos_of_ne_zero fun h => hm (BitVec.eq_of_toNat_eq h)
  have below := Nat.mod_lt (a.toNat + b.toNat) positive
  rw [addmod, if_neg hm, BitVec.toNat_ofNat, Nat.mod_eq_of_lt (below.trans m.isLt)]

theorem mulmod_toNat (hm : m ≠ 0) (a b : Word) :
    (mulmod a b m).toNat = a.toNat * b.toNat % m.toNat := by
  have positive : 0 < m.toNat := Nat.pos_of_ne_zero fun h => hm (BitVec.eq_of_toNat_eq h)
  have below := Nat.mod_lt (a.toNat * b.toNat) positive
  rw [mulmod, if_neg hm, BitVec.toNat_ofNat, Nat.mod_eq_of_lt (below.trans m.isLt)]

/-- The residue of a word. -/
def residue (n : Nat) (w : Word) : ZMod n := (w.toNat : ZMod n)

@[simp] theorem residue_zero (n : Nat) : residue n 0 = 0 := by
  simp [residue]

theorem residue_addmod (hm : m ≠ 0) (a b : Word) :
    residue m.toNat (addmod a b m) = residue m.toNat a + residue m.toNat b := by
  rw [residue, addmod_toNat hm, ZMod.natCast_mod, Nat.cast_add, residue, residue]

theorem residue_mulmod (hm : m ≠ 0) (a b : Word) :
    residue m.toNat (mulmod a b m) = residue m.toNat a * residue m.toNat b := by
  rw [residue, mulmod_toNat hm, ZMod.natCast_mod, Nat.cast_mul, residue, residue]

/-- A reduced word is determined by its residue. -/
theorem toNat_eq_val {n : Nat} {w : Word} (h : w.toNat < n) : w.toNat = (residue n w).val := by
  rw [residue, ZMod.val_natCast_of_lt h]

end Arithmetic

end Evm
