import Mathlib.Data.List.Basic

/-!
# Formats that are read from the left

A reader takes items from the front of a list and leaves the rest. `Reads r b xs` says
that the reader finds `b` in `xs` and stops exactly at its end, whatever follows. The
property is closed under sequences and under runs preceded by their count, and a value
that a reader finds in a text is the only one it can find there.
-/

namespace Codec

variable {α β γ : Type}

/-- What was read and what is left. -/
abbrev Reader (α β : Type) := List α → Option (β × List α)

/-- The reader reads `b` from `xs` and stops there. -/
def Reads (r : Reader α β) (b : β) (xs : List α) : Prop :=
  ∀ rest, r (xs ++ rest) = some (b, rest)

/-- One item. -/
def one (f : α → Option β) : Reader α β
  | [] => none
  | x :: xs => (f x).map fun b => (b, xs)

/-- One after the other. -/
def both (r : Reader α β) (q : Reader α γ) : Reader α (β × γ) := fun xs =>
  match r xs with
  | some (b, ys) => (q ys).map fun (c, zs) => ((b, c), zs)
  | none => none

/-- A fixed number of times. -/
def times (r : Reader α β) : Nat → Reader α (List β)
  | 0 => fun xs => some ([], xs)
  | n + 1 => fun xs =>
      match r xs with
      | some (b, ys) => (times r n ys).map fun (bs, zs) => (b :: bs, zs)
      | none => none

/-- As many times as the item in front says. -/
def counted (count : α → Option Nat) (r : Reader α β) : Reader α (List β) := fun xs =>
  match one count xs with
  | some (n, ys) => times r n ys
  | none => none

namespace Reads

variable {r : Reader α β} {q : Reader α γ} {b b' : β} {c : γ} {xs ys : List α}

/-- What is read is determined by the items. -/
theorem unique (h : Reads r b xs) (h' : Reads r b' xs) : b = b' := by
  have same := (h []).symm.trans (h' [])
  simpa using same

theorem one {f : α → Option β} {x : α} (h : f x = some b) : Reads (one f) b [x] := by
  intro rest
  simp [Codec.one, h]

theorem both (h : Reads r b xs) (h' : Reads q c ys) : Reads (both r q) (b, c) (xs ++ ys) := by
  intro rest
  simp [Codec.both, List.append_assoc, h (ys ++ rest), h' rest]

/-- The induction over a run: each entry is read from its own items. -/
theorem times {encode : β → List α} {bs : List β} (h : ∀ b ∈ bs, Reads r b (encode b)) :
    Reads (times r bs.length) bs (bs.flatMap encode) := by
  intro rest
  induction bs with
  | nil => rfl
  | cons b bs ih =>
      rw [List.forall_mem_cons] at h
      simp [Codec.times, List.append_assoc, h.1 (bs.flatMap encode ++ rest), ih h.2]

theorem counted {count : α → Option Nat} {encode : β → List α} {n : α} {bs : List β}
    (hcount : count n = some bs.length) (h : ∀ b ∈ bs, Reads r b (encode b)) :
    Reads (counted count r) bs (n :: bs.flatMap encode) := by
  intro rest
  simp [Codec.counted, Codec.one, hcount, Reads.times h rest]

end Reads

end Codec
