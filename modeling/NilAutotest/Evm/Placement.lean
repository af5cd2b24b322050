import NilAutotest.Evm.Memory

/-!
# Arguments placed in memory

The arguments of a call are decoded into fresh memory, one word after the other. `ofWords`
is such a memory. Wherever a length and the elements of an array follow each other in the
list of words, the array lies in memory.
-/

namespace Evm

/-- Memory that holds words from an address on. -/
def Memory.ofWords (base : Nat) (ws : List Word) : Memory := fun i =>
  if base ≤ i then
    BitVec.ofNat 8 ((ws[(i - base) / 32]?.getD 0).toNat / 256 ^ (31 - (i - base) % 32))
  else 0

/-- An array as words: its length and its elements. -/
def arrayWords (ws : List Word) : List Word := BitVec.ofNat 256 ws.length :: ws

@[simp] theorem length_arrayWords (ws : List Word) : (arrayWords ws).length = ws.length + 1 := rfl

namespace Memory

variable {base : Nat} {ws : List Word}

theorem mload_ofWords {a v : Word} {k : Nat} (ha : a.toNat = base + 32 * k)
    (hk : ws[k]? = some v) : (ofWords base ws).mload a = v := by
  have bytes : ((List.range 32).map fun i => ((ofWords base ws) (a.toNat + (31 - i))).toNat) =
      (List.range 32).map fun i => v.toNat / 256 ^ i % 256 := by
    apply List.map_congr_left
    intro i hi
    have := List.mem_range.mp hi
    have word : (a.toNat + (31 - i) - base) / 32 = k := by omega
    have byte : 31 - (a.toNat + (31 - i) - base) % 32 = i := by omega
    rw [ofWords, if_pos (by omega), word, byte, hk, Option.getD_some, BitVec.toNat_ofNat]
  rw [mload, bytes, ofNat_ofDigits_range]

/-- A part of the words that is an array. -/
theorem arrayAt_ofWords {a : Word} (front back : List Word) {xs : List Word}
    (hws : ws = front ++ (arrayWords xs ++ back)) (ha : a.toNat = base + 32 * front.length)
    (fits : base + 32 * ws.length ≤ 2 ^ 256) : ArrayAt (ofWords base ws) a xs := by
  have length : ws.length = front.length + (xs.length + 1 + back.length) := by
    rw [hws, List.length_append, List.length_append, length_arrayWords]
  have bound : a.toNat + 32 + 32 * xs.length ≤ 2 ^ 256 := by omega
  constructor
  · exact bound
  · apply mload_ofWords ha
    rw [hws, List.getElem?_append_right (Nat.le_refl _), Nat.sub_self]
    rfl
  · intro k hk
    have address : (a + 0x20 + 0x20 * BitVec.ofNat 256 k).toNat = a.toNat + 32 + 32 * k :=
      toNat_element_of_fits bound hk
    apply mload_ofWords (k := front.length + (k + 1)) (by omega)
    rw [hws, List.getElem?_append_right (by omega), Nat.add_sub_cancel_left, arrayWords,
      List.cons_append, List.getElem?_cons_succ, List.getElem?_append_left hk,
      List.getElem?_eq_getElem hk]

end Memory

end Evm
