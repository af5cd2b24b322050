import NilAutotest.Fourier.Transform

/-!
# The radix-two transform

The transform works in place. First the values are permuted by reversing the digits of
their indices, then `logn` stages combine neighbouring blocks of `m` values to blocks of
twice the size. Before each stage every block holds the transform of the values whose
indices share their low digits (`Blocks`); in the end there is one block.
-/

namespace Domain

open Fourier

/-- One step moves the lowest digit of `n` to `r`. -/
def moveDigit (acc : Nat × Nat) : Nat × Nat :=
  ((acc.1 <<< 1) ||| (acc.2 &&& 1), acc.2 >>> 1)

/-- `bitreverse` -/
def bitreverse (n l : Nat) : Nat :=
  ((List.range l).foldl (fun acc _ => moveDigit acc) (0, n)).1

section Digits

theorem moveDigit_eq (r n : Nat) : moveDigit (r, n) = (2 * r + n % 2, n / 2) := by
  rw [moveDigit, Nat.and_one_is_mod, ← Nat.shiftLeft_add_eq_or_of_lt (by omega), Nat.shiftLeft_eq,
    Nat.shiftRight_one, pow_one, mul_comm]

theorem moveDigits (n l : Nat) :
    (List.range l).foldl (fun acc _ => moveDigit acc) (0, n) = (bitreverse n l, n / 2 ^ l) := by
  apply Prod.ext
  · rfl
  · induction l with
    | zero => simp
    | succ l ih =>
        rw [List.range_succ, List.foldl_append, List.foldl_cons, List.foldl_nil, pow_succ,
          ← Nat.div_div_eq_div_mul, moveDigit, ih, Nat.shiftRight_one]

theorem bitreverse_succ (n l : Nat) :
    bitreverse n (l + 1) = 2 * bitreverse n l + n / 2 ^ l % 2 := by
  rw [bitreverse, List.range_succ, List.foldl_append, moveDigits, List.foldl_cons, List.foldl_nil,
    moveDigit_eq]

theorem bitreverse_succ' (n l : Nat) :
    bitreverse n (l + 1) = n % 2 * 2 ^ l + bitreverse (n / 2) l := by
  induction l with
  | zero => simp [bitreverse, moveDigit_eq]
  | succ l ih =>
      rw [bitreverse_succ, ih, bitreverse_succ (n / 2) l, Nat.div_div_eq_div_mul, pow_succ']
      ring

theorem bitreverse_lt (n l : Nat) : bitreverse n l < 2 ^ l := by
  induction l with
  | zero => simp [bitreverse]
  | succ l ih =>
      rw [bitreverse_succ, pow_succ]
      omega

/-- Reversing twice. -/
theorem bitreverse_bitreverse (n l : Nat) : bitreverse (bitreverse n l) l = n % 2 ^ l := by
  induction l with
  | zero => simp [bitreverse, Nat.mod_one]
  | succ l ih =>
      have digit : (2 * bitreverse n l + n / 2 ^ l % 2) % 2 = n / 2 ^ l % 2 := by omega
      have rest : (2 * bitreverse n l + n / 2 ^ l % 2) / 2 = bitreverse n l := by omega
      rw [bitreverse_succ', bitreverse_succ, digit, rest, ih, Nat.mod_pow_succ]
      ring

end Digits

section Transform

variable {F : Type*} [Field F]

/-- `a[i]` -/
def get (a : List F) (i : Nat) : F := a.getD i 0

/-- `std::swap(a[i], a[j])` -/
def swap (a : List F) (i j : Nat) : List F := (a.set i (get a j)).set j (get a i)

/-- Swap in place. -/
def permute (a : List F) (logn : Nat) : List F :=
  (List.range a.length).foldl (fun a k =>
    if k < bitreverse k logn then swap a k (bitreverse k logn) else a) a

/-- The inner loop: the pairs of a block, with the powers of `wM`. -/
def combinePair (m : Nat) (wM : F) (k : Nat) (acc : List F × F) (j : Nat) : List F × F :=
  let t := get acc.1 (k + j + m) * acc.2
  let a := acc.1.set (k + j + m) (get acc.1 (k + j) - t)
  (a.set (k + j) (get a (k + j) + t), acc.2 * wM)

def combineBlock (m : Nat) (wM : F) (a : List F) (k : Nat) : List F :=
  ((List.range m).foldl (combinePair m wM k) (a, 1)).1

/-- A stage: the blocks of twice the size, one after the other. -/
def stage (omega : F) (m : Nat) (a : List F) : List F :=
  let blocks := a.length / (2 * m)
  let wM := omega ^ blocks
  (List.range blocks).foldl (fun a q => combineBlock m wM a (q * (2 * m))) a

/-- `basic_radix2_fft`; the shift `1u << logn` is one of thirty-two bits. A vector whose size is not
a power of two fails the check at the start. -/
def basicRadix2Fft (a : List F) (omega : F) : Option (List F) :=
  let logn := a.length.log2
  if a.length = 2 ^ logn ∧ logn < 32 then
    some ((List.range logn).foldl (fun (acc : List F × Nat) _ =>
      (stage omega acc.2 acc.1, acc.2 * 2)) (permute a logn, 1)).1
  else none

/-! ## The permutation -/

theorem get_set (a : List F) (i j : Nat) (v : F) :
    get (a.set i v) j = if i = j ∧ j < a.length then v else get a j := by
  rw [get, get, List.getD_eq_getElem?_getD, List.getD_eq_getElem?_getD, List.getElem?_set]
  split
  · subst i
    by_cases h : j < a.length
    · simp [h]
    · simp [h]
  · simp [*]

@[simp] theorem length_swap (a : List F) (i j : Nat) : (swap a i j).length = a.length := by
  simp [swap]

theorem get_swap {a : List F} {i j : Nat} (hi : i < a.length) (hj : j < a.length) (x : Nat) :
    get (swap a i j) x = if x = j then get a i else if x = i then get a j else get a x := by
  rw [swap, get_set, get_set, List.length_set]
  by_cases second : x = j
  · subst second
    simp [hj]
  · by_cases first : x = i
    · subst first
      simp [hi, second, Ne.symm second]
    · simp [first, second, Ne.symm first, Ne.symm second]

/-- The permuted values: an index has got its value when it or its reverse was reached. The loop
swaps only upwards, so no pair is swapped twice. -/
theorem get_permute {a : List F} {logn : Nat} (size : a.length = 2 ^ logn) :
    (permute a logn).length = a.length ∧
      ∀ x < a.length, get (permute a logn) x = get a (bitreverse x logn) := by
  have reverse : ∀ x < a.length, bitreverse x logn < a.length ∧
      bitreverse (bitreverse x logn) logn = x := by
    intro x hx
    rw [bitreverse_bitreverse, ← size, Nat.mod_eq_of_lt hx, size]
    exact ⟨bitreverse_lt x logn, rfl⟩
  have loop : ∀ count ≤ a.length,
      let b := (List.range count).foldl (fun a k =>
        if k < bitreverse k logn then swap a k (bitreverse k logn) else a) a
      b.length = a.length ∧ ∀ x < a.length, get b x =
        if x < count ∨ bitreverse x logn < count then get a (bitreverse x logn) else get a x := by
    intro count
    induction count with
    | zero => simp
    | succ k ih =>
        intro bound
        obtain ⟨length, values⟩ := ih (by omega)
        obtain ⟨small, back⟩ := reverse k (by omega)
        rw [List.range_succ, List.foldl_append, List.foldl_cons, List.foldl_nil]
        by_cases later : k < bitreverse k logn
        · rw [if_pos later]
          refine ⟨by rw [length_swap, length], fun x hx => ?_⟩
          obtain ⟨-, backx⟩ := reverse x hx
          have first := values k (by omega)
          have second := values _ small
          rw [back] at second
          rw [if_neg (by omega)] at first second
          rw [get_swap (by omega) (by omega), first, second]
          by_cases partner : x = bitreverse k logn
          · subst partner
            rw [if_pos rfl, back, if_pos (by omega)]
          · rw [if_neg partner]
            by_cases own : x = k
            · subst own
              rw [if_pos rfl, if_pos (by omega)]
            · have apart : bitreverse x logn ≠ k := fun h => partner (by rw [← h, backx])
              have same : (x < k ∨ bitreverse x logn < k) ↔
                  (x < k + 1 ∨ bitreverse x logn < k + 1) := by omega
              rw [if_neg own, values x hx]
              simp only [same]
        · rw [if_neg later]
          refine ⟨length, fun x hx => ?_⟩
          rw [values x hx]
          obtain ⟨-, backx⟩ := reverse x hx
          by_cases own : x = k
          · subst own
            rw [if_pos (Or.inl (Nat.lt_succ_self x))]
            split
            · rfl
            · have fixed : bitreverse x logn = x := by omega
              rw [fixed]
          · have bound : bitreverse x logn = k → x ≤ k := by
              rintro rfl
              omega
            have same : (x < k ∨ bitreverse x logn < k) ↔
                (x < k + 1 ∨ bitreverse x logn < k + 1) := by omega
            simp only [same]
  obtain ⟨length, values⟩ := loop a.length le_rfl
  refine ⟨length, fun x hx => ?_⟩
  rw [permute, values x hx, if_pos (.inl hx)]

/-! ## A stage -/

/-- The value that a stage leaves at an index, from the values before it. -/
def combined (m : Nat) (wM : F) (a : List F) (x : Nat) : F :=
  if x % (2 * m) < m then get a x + get a (x + m) * wM ^ (x % (2 * m))
  else get a (x - m) - get a x * wM ^ (x % (2 * m) - m)

/-- The first pairs of a block. -/
theorem get_combinePairs {m : Nat} (wM : F) {a : List F} {k : Nat} (block : k + 2 * m ≤ a.length)
    {count : Nat} (bound : count ≤ m) :
    let acc := (List.range count).foldl (combinePair m wM k) (a, 1)
    acc.1.length = a.length ∧ acc.2 = wM ^ count ∧ ∀ x, get acc.1 x =
      if k ≤ x ∧ x < k + count then get a x + get a (x + m) * wM ^ (x - k)
      else if k + m ≤ x ∧ x < k + m + count then get a (x - m) - get a x * wM ^ (x - k - m)
      else get a x := by
  induction count with
  | zero =>
      refine ⟨rfl, (pow_zero wM).symm, fun x => ?_⟩
      rw [if_neg (by omega), if_neg (by omega)]
      rfl
  | succ j ih =>
      obtain ⟨length, power, values⟩ := ih (by omega)
      have low := values (k + j)
      have high := values (k + j + m)
      rw [if_neg (by omega), if_neg (by omega)] at low high
      rw [List.range_succ, List.foldl_append, List.foldl_cons, List.foldl_nil]
      refine ⟨by simp only [combinePair, List.length_set, length], by
        simp only [combinePair, power, pow_succ], fun x => ?_⟩
      simp only [combinePair, get_set, List.length_set, length, low, high, power]
      by_cases first : x = k + j
      · subst first
        rw [if_pos ⟨rfl, by omega⟩, if_neg (by omega), if_pos ⟨by omega, by omega⟩,
          Nat.add_sub_cancel_left]
      · by_cases second : x = k + j + m
        · subst second
          have index : k + j + m - m = k + j := by omega
          have exponent : k + j + m - k - m = j := by omega
          rw [if_neg (by omega), if_pos ⟨rfl, by omega⟩, if_neg (by omega),
            if_pos ⟨by omega, by omega⟩, index, exponent]
        · rw [if_neg (by omega), if_neg (by omega), values x]
          have low : (k ≤ x ∧ x < k + j) ↔ (k ≤ x ∧ x < k + (j + 1)) := by omega
          have high : (k + m ≤ x ∧ x < k + m + j) ↔ (k + m ≤ x ∧ x < k + m + (j + 1)) := by omega
          simp only [low, high]

theorem get_combineBlock {m : Nat} (wM : F) {a : List F} {q : Nat}
    (block : q * (2 * m) + 2 * m ≤ a.length) :
    (combineBlock m wM a (q * (2 * m))).length = a.length ∧
      ∀ x, get (combineBlock m wM a (q * (2 * m))) x =
        if q * (2 * m) ≤ x ∧ x < q * (2 * m) + 2 * m then combined m wM a x else get a x := by
  obtain ⟨length, -, values⟩ := get_combinePairs wM block le_rfl
  refine ⟨length, fun x => (values x).trans ?_⟩
  by_cases inside : q * (2 * m) ≤ x ∧ x < q * (2 * m) + 2 * m
  · have offset : x % (2 * m) = x - q * (2 * m) := by
      obtain ⟨r, rfl⟩ := Nat.exists_eq_add_of_le inside.1
      rw [Nat.mul_comm q, Nat.mul_add_mod, Nat.mod_eq_of_lt (by omega), Nat.add_sub_cancel_left]
    rw [if_pos inside, combined, offset]
    by_cases low : x < q * (2 * m) + m
    · rw [if_pos ⟨inside.1, low⟩, if_pos (by omega)]
    · rw [if_neg (by omega), if_pos ⟨by omega, by omega⟩, if_neg (by omega)]
  · rw [if_neg inside, if_neg (by omega), if_neg (by omega)]

theorem get_stage (omega : F) {m : Nat} {a : List F} {blocks : Nat} (hm : 0 < m)
    (size : a.length = blocks * (2 * m)) :
    (stage omega m a).length = a.length ∧ ∀ x < a.length,
      get (stage omega m a) x = combined m (omega ^ blocks) a x := by
  have count : a.length / (2 * m) = blocks := by rw [size, Nat.mul_div_cancel _ (by omega)]
  have loop : ∀ count ≤ blocks,
      let b := (List.range count).foldl (fun a q =>
        combineBlock m (omega ^ blocks) a (q * (2 * m))) a
      b.length = a.length ∧ ∀ x, get b x =
        if x < count * (2 * m) then combined m (omega ^ blocks) a x else get a x := by
    intro count
    induction count with
    | zero => simp
    | succ q ih =>
        intro bound
        obtain ⟨length, values⟩ := ih (by omega)
        have next : (q + 1) * (2 * m) = q * (2 * m) + 2 * m := Nat.succ_mul _ _
        have fits : (q + 1) * (2 * m) ≤ blocks * (2 * m) := Nat.mul_le_mul_right _ bound
        rw [List.range_succ, List.foldl_append, List.foldl_cons, List.foldl_nil]
        obtain ⟨length', values'⟩ := get_combineBlock (omega ^ blocks)
          (show q * (2 * m) + 2 * m ≤ _ by rw [length]; omega)
        refine ⟨length'.trans length, fun x => (values' x).trans ?_⟩
        by_cases inside : q * (2 * m) ≤ x ∧ x < q * (2 * m) + 2 * m
        · rw [if_pos inside, if_pos (by omega)]
          have old : ∀ y, q * (2 * m) ≤ y → get (List.foldl (fun a q =>
              combineBlock m (omega ^ blocks) a (q * (2 * m))) a (List.range q)) y = get a y := by
            intro y hy
            rw [values y, if_neg (by omega)]
          have offset : x % (2 * m) = x - q * (2 * m) := by
            obtain ⟨r, rfl⟩ := Nat.exists_eq_add_of_le inside.1
            rw [Nat.mul_comm q, Nat.mul_add_mod, Nat.mod_eq_of_lt (by omega),
              Nat.add_sub_cancel_left]
          rw [combined, combined, old x inside.1, old (x + m) (by omega)]
          split
          · rfl
          · rw [old (x - m) (by omega)]
        · rw [if_neg inside, values x]
          have same : x < q * (2 * m) ↔ x < (q + 1) * (2 * m) := by omega
          simp only [same]
  obtain ⟨length, values⟩ := loop blocks le_rfl
  refine ⟨by rw [stage, count]; exact length, fun x hx => ?_⟩
  rw [stage, count]
  refine (values x).trans (if_pos (by omega))

/-! ## All stages -/

/-- After `s` of `s + r` stages, each block holds the transform of the values whose low
digits are the reversed index of the block. -/
def Blocks (omega : F) (x : Nat → F) (s r : Nat) (a : List F) : Prop :=
  a.length = 2 ^ (s + r) ∧ ∀ k < 2 ^ r, ∀ j < 2 ^ s,
    get a (k * 2 ^ s + j) =
      transform (2 ^ s) (omega ^ 2 ^ r) (fun t => x (bitreverse k r + t * 2 ^ r)) j

theorem blocks_permute {a : List F} {logn : Nat} (omega : F) (size : a.length = 2 ^ logn) :
    Blocks omega (get a) 0 logn (permute a logn) := by
  obtain ⟨length, values⟩ := get_permute size
  refine ⟨by rw [length, size, Nat.zero_add], fun k hk j hj => ?_⟩
  obtain rfl : j = 0 := by simpa using hj
  rw [pow_zero, transform_one, mul_one, Nat.zero_mul, Nat.add_zero, Nat.add_zero]
  exact values k (by omega)

/-- In one stage two neighbouring blocks, whose reversed indices differ in the highest digit only,
become one block. -/
theorem Blocks.stage {omega : F} {x : Nat → F} {s r : Nat} {a : List F}
    (h : Blocks omega x s (r + 1) a) (half : omega ^ 2 ^ (s + r) = -1) :
    Blocks omega x (s + 1) r (stage omega (2 ^ s) a) := by
  obtain ⟨size, values⟩ := h
  have double : 2 ^ (s + 1) = 2 * 2 ^ s := pow_succ' 2 s
  have total : a.length = 2 ^ r * (2 * 2 ^ s) := by
    rw [size, ← double, ← pow_add]
    congr 1
    omega
  obtain ⟨length, stage⟩ := get_stage omega (Nat.two_pow_pos s) total
  have square : (omega ^ 2 ^ r) ^ 2 = omega ^ 2 ^ (r + 1) := by rw [← pow_mul, pow_succ]
  have minus : (omega ^ 2 ^ r) ^ 2 ^ s = -1 := by rw [← pow_mul, ← pow_add, add_comm r, half]
  have step : 2 ^ (r + 1) = 2 * 2 ^ r := pow_succ' 2 r
  refine ⟨by rw [length, size]; congr 1; omega, fun k hk => ?_⟩
  -- the two blocks that are combined hold the even and the odd values
  have even : ∀ j < 2 ^ s, get a (k * (2 * 2 ^ s) + j) = transform (2 ^ s) ((omega ^ 2 ^ r) ^ 2)
      (fun t => x (bitreverse k r + 2 * t * 2 ^ r)) j := by
    intro j hj
    have index : k * (2 * 2 ^ s) + j = 2 * k * 2 ^ s + j := by ring
    have digit : 2 * k % 2 = 0 := by omega
    have rest : 2 * k / 2 = k := by omega
    rw [index, values (2 * k) (by omega) j hj, square, bitreverse_succ', digit, rest]
    apply transform_congr
    intro t _
    congr 1
    rw [step]
    ring
  have odd : ∀ j < 2 ^ s, get a (k * (2 * 2 ^ s) + j + 2 ^ s) =
      transform (2 ^ s) ((omega ^ 2 ^ r) ^ 2)
        (fun t => x (bitreverse k r + (2 * t + 1) * 2 ^ r)) j := by
    intro j hj
    have index : k * (2 * 2 ^ s) + j + 2 ^ s = (2 * k + 1) * 2 ^ s + j := by ring
    have digit : (2 * k + 1) % 2 = 1 := by omega
    have rest : (2 * k + 1) / 2 = k := by omega
    rw [index, values (2 * k + 1) (by omega) j hj, square, bitreverse_succ', digit, rest]
    apply transform_congr
    intro t _
    congr 1
    rw [step]
    ring
  have block : ∀ i < 2 * 2 ^ s, k * (2 * 2 ^ s) + i < a.length ∧
      (k * (2 * 2 ^ s) + i) % (2 * 2 ^ s) = i := by
    intro i hi
    have last : (k + 1) * (2 * 2 ^ s) ≤ 2 ^ r * (2 * 2 ^ s) := Nat.mul_le_mul_right _ hk
    rw [Nat.succ_mul] at last
    rw [Nat.mul_comm k, Nat.mul_add_mod, Nat.mod_eq_of_lt hi, Nat.mul_comm]
    exact ⟨by omega, rfl⟩
  intro j hj
  rw [double] at hj ⊢
  obtain ⟨inside, offset⟩ := block j hj
  rw [stage _ inside, combined, offset]
  by_cases low : j < 2 ^ s
  · rw [if_pos low, even j low, odd j low, transform_two_mul, ← pow_mul, mul_comm (transform ..)]
  · obtain ⟨i, rfl⟩ := Nat.exists_eq_add_of_le' (Nat.le_of_not_lt low)
    have hi : i < 2 ^ s := by omega
    have first : k * (2 * 2 ^ s) + (i + 2 ^ s) - 2 ^ s = k * (2 * 2 ^ s) + i := by omega
    rw [if_neg low, Nat.add_sub_cancel, first, even i hi, ← Nat.add_assoc, odd i hi,
      transform_two_mul_add _ minus, ← pow_mul, mul_comm (transform ..)]

/-- The radix-two transform computes the discrete Fourier transform, for any `omega` of the order of
the size. The induction is on the stages that are done. -/
theorem basicRadix2Fft_eq {a : List F} {omega : F} {logn : Nat} (size : a.length = 2 ^ logn)
    (small : logn < 32) (primitive : IsPrimitiveRoot omega (2 ^ logn)) :
    ∃ b, basicRadix2Fft a omega = some b ∧ b.length = 2 ^ logn ∧
      ∀ j < 2 ^ logn, get b j = transform (2 ^ logn) omega (get a) j := by
  have log : a.length.log2 = logn := by rw [size, Nat.log2_two_pow]
  have loop : ∀ s r, s + r = logn →
      let acc := (List.range s).foldl (fun (acc : List F × Nat) _ =>
        (stage omega acc.2 acc.1, acc.2 * 2)) (permute a logn, 1)
      acc.2 = 2 ^ s ∧ Blocks omega (get a) s r acc.1 := by
    intro s
    induction s with
    | zero =>
        intro r hr
        obtain rfl : r = logn := by omega
        exact ⟨rfl, blocks_permute omega size⟩
    | succ s ih =>
        intro r hr
        obtain ⟨width, blocks⟩ := ih (r + 1) (by omega)
        rw [List.range_succ, List.foldl_append, List.foldl_cons, List.foldl_nil, width]
        have half : omega ^ 2 ^ (s + r) = -1 := by
          have square : (omega ^ 2 ^ (s + r)) ^ 2 = 1 := by
            have whole : 2 ^ (s + r) * 2 = 2 ^ logn := by
              rw [← pow_succ]
              congr 1
              omega
            rw [← pow_mul, whole, primitive.pow_eq_one]
          have notOne : omega ^ 2 ^ (s + r) ≠ 1 := by
            apply primitive.pow_ne_one_of_pos_of_lt (Nat.two_pow_pos _).ne'
            exact Nat.pow_lt_pow_right (by decide) (by omega)
          rw [pow_two] at square
          exact (mul_self_eq_one_iff.mp square).resolve_left notOne
        exact ⟨(pow_succ 2 s).symm, blocks.stage half⟩
  obtain ⟨-, length, values⟩ := loop logn 0 rfl
  refine ⟨_, ?_, length, fun j hj => ?_⟩
  · rw [basicRadix2Fft, log, if_pos ⟨size, small⟩]
  · have value := values 0 (by decide) j hj
    rw [Nat.zero_mul, Nat.zero_add, pow_zero, pow_one] at value
    refine value.trans (transform_congr (fun t _ => ?_) j)
    simp [bitreverse]

end Transform

end Domain
