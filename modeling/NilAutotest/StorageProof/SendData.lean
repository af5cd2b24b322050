import NilAutotest.Contract.Binding
import NilAutotest.StorageProof.MockData
import NilAutotest.Tasks.Decoding

/-!
# Sending a storage proof

`sendData` builds the arguments of `verifyStorageProof` from three files: the proof, the
circuit parameters and the public input. The encoder of the transaction library is a
parameter with its documented behaviour: integers of the range of their type become words,
others are rejected, and a hexadecimal text of thirty-two bytes becomes the word it shows.

For a well-formed parameter file whose integers are in range, the words of the call are
read back to the contents of the file, and its root and leaf are those of the public
input. The contract then treats every public input alike.
-/

namespace StorageProof

open JavaScript Tasks Contract Codec Text Control

/-- The argument encoder of the transaction library. -/
structure Encoder where
  bytes : Units → Except Error (List (BitVec 8))
  uint256 : Value → Except Error (BitVec 256)
  int256 : Int → Except Error (BitVec 256)
  bytes32 : Units → Except Error (BitVec 256)
  uint256_bigint : ∀ n : Int, 0 ≤ n → n < 2 ^ 256 →
    uint256 (.bigint n) = .ok (BitVec.ofInt 256 n)
  uint256_number : ∀ n : Nat, n < 2 ^ 53 → uint256 (.number n) = .ok (BitVec.ofNat 256 n)
  int256_int : ∀ n : Int, -2 ^ 255 ≤ n → n < 2 ^ 255 → int256 n = .ok (BitVec.ofInt 256 n)
  bytes32_hex : ∀ digest : Digest, bytes32 (units ('0' :: 'x' :: hex digest.1)) =
    .ok (BitVec.ofNat 256 (fromBytes digest.1))

/-- An encoder that rejects nothing else than integers out of range and texts that show no
word. -/
def Encoder.plain : Encoder where
  bytes units := .ok (units.map fun u => BitVec.ofNat 8 u.toNat)
  uint256 v :=
    match v with
    | .bigint n => if 0 ≤ n ∧ n < 2 ^ 256 then .ok (BitVec.ofInt 256 n) else .error .other
    | .number n => if n < 2 ^ 53 then .ok (BitVec.ofNat 256 n) else .error .other
    | _ => .error .other
  int256 n :=
    if -2 ^ 255 ≤ n ∧ n < 2 ^ 255 then .ok (BitVec.ofInt 256 n) else .error .other
  bytes32 units :=
    match units.map unitChar with
    | '0' :: 'x' :: text =>
        match natOfBase? 16 text with
        | some n => if text.length = 64 then .ok (BitVec.ofNat 256 n) else .error .other
        | none => .error .other
    | _ => .error .other
  uint256_bigint n low high := if_pos ⟨low, high⟩
  uint256_number n small := if_pos small
  int256_int n low high := if_pos ⟨low, high⟩
  bytes32_hex digest := by
    have length : (hex digest.1).length = 64 := by rw [length_hex, digest.2]
    have text : (units ('0' :: 'x' :: hex digest.1)).map unitChar =
        '0' :: 'x' :: hex digest.1 := by
      apply map_unitChar_units
      simpa using hex_small digest.1
    simp only [text, natOfBase?_hex, length, if_true]

/-- `v[i]` with a number for the index. -/
def element (i : Nat) : Json → Except Error Value
  | .null => .error .typeError
  | .arr elements => .ok (elements[i]?.elim .undefined .json)
  | .str s => .ok (s[i]?.elim .undefined fun u => .json (.str [u]))
  | .obj members => .ok ((members.lookup (units (digits i))).elim .undefined .json)
  | .bool _ | .num _ => .ok .undefined

/-- `'0x' + v`. The numbers of the public input are plain ones, with their own text. -/
def hexText (N : LosslessNumber) (v : Value) : Except Error Units := do
  let text ←
    match v with
    | .undefined => .ok (units "undefined".toList)
    | .json .null => .ok (units "null".toList)
    | .json j => joined N j
    | .number n => .ok (units (digits n))
    | .bigint n => .ok (units (NumberLiteral.ofInt n).text)
  pure (units "0x".toList ++ text)

/-- The call that the task makes, from the contents of its files. -/
def sendData (L N : LosslessNumber) (E : Encoder) (blob : Units) (circuitParams pubi : Json) :
    Except Error Invocation := do
  let circuitParamsData ← getAccountVerifierParams L circuitParams
  let root ← element 0 pubi
  let root ← root.get "root"
  let root ← hexText N root
  let leaf ← element 1 pubi
  let leaf ← leaf.get "leaf"
  let leaf ← hexText N leaf
  let blob ← E.bytes blob
  let initParams ← circuitParamsData.initParams.mapM E.uint256
  let columnsRotations ← circuitParamsData.columnsRotations.mapM fun row => row.mapM E.int256
  let root ← E.bytes32 root
  let leaf ← E.bytes32 leaf
  pure (.verifyStorageProof blob initParams columnsRotations root leaf)

/-- The integers of a file are in the range of their words. -/
structure InRange (cp : CircuitParams) : Prop where
  entries : ∀ n ∈ cp.entries, 0 ≤ n ∧ n < 2 ^ 256
  lengths : cp.dOmegas.length < 2 ^ 53 ∧ cp.stepList.length < 2 ^ 53 ∧
    cp.arithmetizationParams.length < 2 ^ 53
  rotations : ∀ row ∈ cp.columnsRotations, ∀ n ∈ row, -2 ^ 255 ≤ n ∧ n < 2 ^ 255

/-- Words read as unsigned integers. -/
def wordsReader : Reader (BitVec 256) (List Int × List Int × List Int × List Int) :=
  paramsReader (fun w => some (w.toNat : Int)) fun w => some w.toNat

/-- The words of the contents of a file. -/
def words (cp : CircuitParams) : List (BitVec 256) :=
  cp.flatten (BitVec.ofInt 256) (BitVec.ofNat 256 cp.dOmegas.length)
    (BitVec.ofNat 256 cp.stepList.length) (BitVec.ofNat 256 cp.arithmetizationParams.length)

variable {cp : CircuitParams}

theorem toNat_ofInt {n : Int} (low : 0 ≤ n) (high : n < 2 ^ 256) :
    ((BitVec.ofInt 256 n).toNat : Int) = n := by
  rw [BitVec.toNat_ofInt]
  omega

theorem toNat_length {n : Nat} (small : n < 2 ^ 53) : (BitVec.ofNat 256 n).toNat = n := by
  rw [BitVec.toNat_ofNat]
  omega

theorem reads_words (h : InRange cp) : Reads wordsReader cp.flat (words cp) := by
  apply reads_flatten
  · rw [toNat_length h.lengths.1]
  · rw [toNat_length h.lengths.2.1]
  · rw [toNat_length h.lengths.2.2]
  · intro n hn
    rw [toNat_ofInt (h.entries n hn).1 (h.entries n hn).2]

/-- The encoder turns the loaded parameters into these words. -/
theorem encode_initParams (E : Encoder) (h : InRange cp) :
    cp.load.initParams.mapM E.uint256 = .ok (words cp) := by
  rw [mapM_eq_ok]
  apply forall₂_flatten
  · have small := h.lengths.1
    rw [E.uint256_bigint _ (by omega) (by omega), BitVec.ofInt_natCast]
  · exact E.uint256_number _ h.lengths.2.1
  · exact E.uint256_number _ h.lengths.2.2
  · intro n hn
    exact E.uint256_bigint n (h.entries n hn).1 (h.entries n hn).2

theorem encode_rotations (E : Encoder) (h : InRange cp) :
    (cp.load.columnsRotations.mapM fun row => row.mapM E.int256) =
      .ok (cp.columnsRotations.map fun row => row.map (BitVec.ofInt 256)) := by
  simp only [CircuitParams.load, mapM_eq_ok, List.forall₂_map_right_iff, List.forall₂_same]
  intro row hrow n hn
  exact E.int256_int n (h.rotations row hrow n hn).1 (h.rotations row hrow n hn).2

/-- The words of the call are read back to the contents of the file. -/
theorem words_decodable (h : InRange cp) :
    wordsReader (words cp) = some (cp.flat, []) ∧
      ((cp.columnsRotations.map fun row => row.map (BitVec.ofInt 256)).map fun row =>
        row.map BitVec.toInt) = cp.columnsRotations := by
  constructor
  · have read := reads_words h []
    rwa [List.append_nil] at read
  · rw [List.map_map]
    refine (List.map_congr_left fun row hrow => ?_).trans (List.map_id _)
    show (row.map (BitVec.ofInt 256)).map BitVec.toInt = row
    rw [List.map_map]
    refine (List.map_congr_left fun n hn => ?_).trans (List.map_id _)
    exact BitVec.toInt_ofInt_eq_self (by decide) (h.rotations row hrow n hn).1
      (h.rotations row hrow n hn).2

/-- The word of a digest. -/
def Digest.word (digest : Digest) : BitVec 256 := BitVec.ofNat 256 (fromBytes digest.1)

theorem Digest.toNat_word (digest : Digest) : digest.word.toNat = fromBytes digest.1 := by
  have lt := fromBytes_lt digest.1
  rw [digest.2] at lt
  rw [word, BitVec.toNat_ofNat, Nat.mod_eq_of_lt (lt.trans_eq (by decide))]

/-- The text that is sent for a member of the public input. -/
theorem hexText_hex (N : LosslessNumber) (digest : Digest) :
    hexText N (.json (.str (units (hex digest.1)))) =
      .ok (units ('0' :: 'x' :: hex digest.1)) := rfl

/-- The call for well-formed parameters and the public input of a mock proof. -/
theorem sendData_publicInput {L N : LosslessNumber} {E : Encoder} {blob : Units}
    {circuitParams : Json} {proof : List (BitVec 8)} (hcp : Describes circuitParams cp)
    (h : InRange cp) (hproof : E.bytes blob = .ok proof) (root leaf : Digest) :
    sendData L N E blob circuitParams (publicInput root leaf) =
      .ok (.verifyStorageProof proof (words cp)
        (cp.columnsRotations.map fun row => row.map (BitVec.ofInt 256)) root.word leaf.word) := by
  have loaded : getAccountVerifierParams L circuitParams = .ok cp.load := hcp.load
  have first : (element 0 (publicInput root leaf) >>= Value.get "root") =
      .ok (.json (.str (units (hex root.1)))) := rfl
  have second : (element 1 (publicInput root leaf) >>= Value.get "leaf") =
      .ok (.json (.str (units (hex leaf.1)))) := rfl
  obtain ⟨v, hv, hroot⟩ := bind_eq_ok.mp first
  obtain ⟨w, hw, hleaf⟩ := bind_eq_ok.mp second
  rw [sendData, bind_eq_ok]
  refine ⟨cp.load, loaded, ?_⟩
  simp only [hv, hroot, hw, hleaf, hexText_hex, hproof, encode_initParams E h, E.bytes32_hex,
    encode_rotations E h, Digest.word, bind, Except.bind]
  rfl

def zeros : Digest := ⟨.replicate 32 0, by decide⟩

def ones : Digest := ⟨.replicate 32 1, by decide⟩

/-- A file in which entries and counts look alike, with rotations to both sides. -/
def alike : CircuitParams := ⟨7, 1, 2, 3, 0, 1, [2, 1], [], [1, 0], [[-1, 0], []]⟩

theorem inRange_alike : InRange alike := by
  constructor <;> simp [alike, CircuitParams.entries, CircuitParams.scalars]

end StorageProof
