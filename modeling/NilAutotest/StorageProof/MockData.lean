import NilAutotest.JavaScript.Value
import Mathlib.Data.Nat.Digits.Lemmas

/-!
# The data of a mock storage proof

A digest of thirty-two bytes goes into the circuit's input as two decimal numbers of
sixteen bytes each, and into the public input as a hexadecimal text. Neither loses
anything.
-/

namespace StorageProof

open Text JavaScript

abbrev Bytes := List (BitVec 8)

/-- A digest of thirty-two bytes. -/
abbrev Digest := { bytes : Bytes // bytes.length = 32 }

/-- `int.from_bytes(bytes, 'big')`. -/
def fromBytes (bytes : Bytes) : Nat := Nat.ofDigits 256 (bytes.reverse.map BitVec.toNat)

/-- The two halves of a digest as decimal texts. -/
def sliceIntoLowHigh (digest : Digest) : List Char × List Char :=
  let low := digits (fromBytes (digest.1.take 16))
  let high := digits (fromBytes (digest.1.drop 16))
  (low, high)

/-- `bytes.hex()`. -/
def hex (bytes : Bytes) : List Char :=
  bytes.flatMap fun byte => [Nat.digitChar (byte.toNat / 16), Nat.digitChar (byte.toNat % 16)]

/-- The public input, as it is written to its file and parsed again. -/
def publicInput (root leaf : Digest) : Json :=
  .arr [.obj [(units "root".toList, .str (units (hex root.1)))],
    .obj [(units "leaf".toList, .str (units (hex leaf.1)))]]

theorem byte_lt (bytes : Bytes) : ∀ d ∈ bytes.reverse.map BitVec.toNat, d < 256 := by
  intro d hd
  obtain ⟨byte, _, rfl⟩ := List.mem_map.mp hd
  exact byte.isLt

theorem fromBytes_lt (bytes : Bytes) : fromBytes bytes < 256 ^ bytes.length := by
  have lt := Nat.ofDigits_lt_base_pow_length (b := 256) (by decide) (byte_lt bytes)
  rwa [List.length_map, List.length_reverse] at lt

/-- Bytes of one length are determined by their number. -/
theorem fromBytes_injective {bytes bytes' : Bytes} (length : bytes.length = bytes'.length)
    (h : fromBytes bytes = fromBytes bytes') : bytes = bytes' := by
  have same := Nat.ofDigits_inj_of_len_eq (b := 256) (by decide) (by simpa using length)
    (byte_lt bytes) (byte_lt bytes') h
  have injective : Function.Injective (BitVec.toNat (w := 8)) := fun _ _ => BitVec.eq_of_toNat_eq
  exact List.reverse_injective (List.map_injective_iff.mpr injective same)

theorem fromBytes_cons (byte : BitVec 8) (bytes : Bytes) :
    fromBytes (byte :: bytes) = byte.toNat * 256 ^ bytes.length + fromBytes bytes := by
  simp only [fromBytes, List.reverse_cons, List.map_append, List.map_cons, List.map_nil,
    Nat.ofDigits_append, Nat.ofDigits_singleton, List.length_map, List.length_reverse]
  ring

/-- The two hexadecimal digits of a byte. -/
theorem digitValue?_digitChar {d : Nat} (h : d < 16) :
    digitValue? 16 (Nat.digitChar d) = some d := by
  have table : ∀ d : Fin 16, digitValue? 16 (Nat.digitChar d) = some d.1 := by decide
  exact table ⟨d, h⟩

/-- A hexadecimal text is read as the number of its bytes. -/
theorem foldlM_hex (bytes : Bytes) (init : Nat) :
    (hex bytes).foldlM (fun n c => (digitValue? 16 c).map fun d => 16 * n + d) init =
      some (init * 256 ^ bytes.length + fromBytes bytes) := by
  induction bytes generalizing init with
  | nil => simp [hex, fromBytes]
  | cons byte bytes ih =>
      have high : byte.toNat / 16 < 16 := by
        have := byte.isLt
        omega
      have low : byte.toNat % 16 < 16 := Nat.mod_lt _ (by decide)
      have shape : hex (byte :: bytes) = Nat.digitChar (byte.toNat / 16) ::
          Nat.digitChar (byte.toNat % 16) :: hex bytes := rfl
      have step : 16 * (16 * init + byte.toNat / 16) + byte.toNat % 16 =
          256 * init + byte.toNat := by omega
      simp only [shape, List.foldlM_cons, digitValue?_digitChar high, digitValue?_digitChar low,
        Option.map_some, Option.bind_eq_bind, Option.bind_some, step, ih, fromBytes_cons,
        List.length_cons, Nat.pow_succ]
      congr 1
      ring

theorem length_hex (bytes : Bytes) : (hex bytes).length = 2 * bytes.length := by
  simp [hex, List.length_flatMap, Nat.mul_comm]

theorem hex_small (bytes : Bytes) : ∀ c ∈ hex bytes, c.toNat < 65536 := by
  have table : ∀ d : Fin 16, (Nat.digitChar d).toNat < 65536 := by decide
  intro c hc
  obtain ⟨byte, _, hc⟩ := List.mem_flatMap.mp hc
  have bound := byte.isLt
  simp only [List.mem_cons, List.not_mem_nil, or_false] at hc
  obtain rfl | rfl := hc
  · exact table ⟨byte.toNat / 16, by omega⟩
  · exact table ⟨byte.toNat % 16, by omega⟩

theorem natOfBase?_hex (digest : Digest) :
    natOfBase? 16 (hex digest.1) = some (fromBytes digest.1) := by
  have nonempty : hex digest.1 ≠ [] := by
    obtain ⟨bytes, length⟩ := digest
    cases bytes with
    | nil => simp at length
    | cons byte bytes => simp [hex]
  rw [natOfBase?, if_neg nonempty, foldlM_hex]
  simp

/-- The slices keep the whole digest. -/
theorem sliceIntoLowHigh_injective : Function.Injective sliceIntoLowHigh := by
  intro digest digest' same
  have number : ∀ {m n : Nat}, digits m = digits n → m = n := by
    intro m n same
    simpa using congrArg natOfDigits? same
  have low := fromBytes_injective (by simp [digest.2, digest'.2])
    (number (congrArg Prod.fst same))
  have high := fromBytes_injective (by simp [digest.2, digest'.2])
    (number (congrArg Prod.snd same))
  apply Subtype.ext
  rw [← List.take_append_drop 16 digest.1, low, high, List.take_append_drop]

end StorageProof
