import NilAutotest.Tasks.Params

/-!
# Which documents are rejected

Rejection rests on the property accesses and conversions that happen to throw. Each step
of the loader has its own domain: a scalar needs a `value` that `BigInt` accepts, a
counted list also needs a length, and a loop needs every value it visits to be accepted.
`Loadable` puts the domains together in terms of the kinds of values in the document, and
the loader throws on all other documents and on no more.
-/

namespace Tasks

open JavaScript Control

/-- `BigInt` accepts the value. -/
def Convertible (L : LosslessNumber) (j : Json) : Prop := ∃ n, bigInt L (.json j) = .ok n

/-- What is read through its member `value`: an integer, or an object with a convertible
member of that name. -/
def Readable (L : LosslessNumber) (j : Json) : Prop :=
  match j with
  | .num l => l.IsInteger
  | .obj _ => ∃ v, j.member? "value" = some v ∧ Convertible L v
  | _ => False

/-- What a loop visits is accepted. Nothing is visited in null, a boolean or the empty
string, and no unit of a string is ever accepted. -/
def Visitable (Accepted : Json → Prop) (j : Json) : Prop :=
  match j with
  | .null | .bool _ => True
  | .str s => s = []
  | .num _ => False
  | .arr elements => ∀ e ∈ elements, Accepted e
  | .obj members => ∀ name e, members.lookup name = some e → Accepted e

/-- The length is converted: of an array or a string, or a convertible member `length`. -/
def Measurable (L : LosslessNumber) (j : Json) : Prop :=
  match j with
  | .str _ | .arr _ => True
  | .obj _ => ∃ v, j.member? "length" = some v ∧ Convertible L v
  | _ => False

/-- The documents that are loaded. -/
structure Loadable (L : LosslessNumber) (document : Json) : Prop where
  scalars : ∀ name ∈ ["modulus", "r", "max_degree", "lambda", "rows_amount", "omega"],
    ∃ j, document.member? name = some j ∧ Readable L j
  dOmegas : ∃ j, document.member? "D_omegas" = some j ∧ Measurable L j ∧ Visitable (Readable L) j
  lists : ∀ name ∈ ["step_list", "arithmetization_params"],
    ∃ j, document.member? name = some j ∧ j ≠ .null ∧ Visitable (Readable L) j
  columnsRotations : ∀ j, document.member? "columns_rotations" = some j →
    Visitable (Visitable (Readable L)) j

variable {L : LosslessNumber}

/-! ## The members of an object -/

/-- The members that are kept are those that a lookup finds. -/
theorem mem_distinct {members : List (Units × Json)} {m : Units × Json} :
    m ∈ distinct members ↔ members.lookup m.1 = some m.2 := by
  induction members with
  | nil => simp [distinct]
  | cons first members ih =>
      obtain ⟨name, j⟩ := first
      obtain ⟨name', e⟩ := m
      by_cases same : name' = name
      · subst same
        simp [distinct, eq_comm]
      · simp [distinct, same, ih, List.lookup_cons, beq_eq_false_iff_ne.mpr same]

theorem mem_enumerated {members : List (Units × Json)} {m : Units × Json} :
    m ∈ enumerated members ↔ members.lookup m.1 = some m.2 := by
  rw [← mem_distinct, enumerated, List.mem_append, List.mem_insertionSort,
    List.mem_filter, List.mem_filter]
  cases (arrayIndex? m.1) with
  | none => simp
  | some n => simp

/-! ## The domain of each step -/

theorem bigIntOfValue_ok {v : Value} :
    (∃ n, bigIntOfValue L v = .ok n) ↔ ∃ j, v = .json j ∧ Readable L j := by
  cases v with
  | undefined => simp [bigIntOfValue, Value.get, bind, Except.bind]
  | number n => simp [bigIntOfValue, Value.get, bigInt, bind, Except.bind]
  | bigint n => simp [bigIntOfValue, Value.get, bigInt, bind, Except.bind]
  | json j =>
      cases j with
      | null => simp [bigIntOfValue, Value.get, Readable, bind, Except.bind]
      | bool b => simp [bigIntOfValue, Value.get, bigInt, Readable, bind, Except.bind]
      | str s => simp [bigIntOfValue, Value.get, bigInt, Readable, bind, Except.bind]
      | arr elements => simp [bigIntOfValue, Value.get, bigInt, Readable, bind, Except.bind]
      | num l =>
          have text : bigIntOfValue L (.json (.num l)) = stringToBigInt (units l.text) := rfl
          simp only [text, NumberLiteral.stringToBigInt_text, Value.json.injEq, exists_eq_left',
            Readable]
          split <;> simp_all
      | obj members =>
          simp only [bigIntOfValue, bind_eq_ok, Value.get, Except.ok.injEq, exists_eq_left',
            Value.json.injEq, Readable, Convertible]
          cases (Json.obj members).member? "value" with
          | none => simp [bigInt]
          | some v => simp

/-- The domain of a loop, from that of its body. -/
theorem mapM_entries_ok {α : Type} {f : Value → Except Error α} {Accepted : Json → Prop}
    (hf : ∀ j, (∃ a, f (.json j) = .ok a) ↔ Accepted j)
    (hstr : ∀ s, s ≠ [] → ¬Accepted (.str s)) (j : Json) :
    (∃ as, (Value.json j).entries.mapM f = .ok as) ↔ Visitable Accepted j := by
  rw [exists_mapM_eq_ok]
  cases j with
  | null => simp [Value.entries, Visitable]
  | bool b => simp [Value.entries, Visitable]
  | str s =>
      cases s with
      | nil => simp [Value.entries, Visitable]
      | cons u s => simp [Value.entries, Visitable, hf, hstr]
  | num l =>
      have visible : units l.text ≠ [] := by
        simpa [units] using l.text_ne_nil
      simp [Value.entries, Visitable, hf, hstr _ visible]
  | arr elements => simp [Value.entries, Visitable, hf]
  | obj members =>
      simp only [Value.entries, Visitable, List.forall_mem_map, hf, Prod.forall, mem_enumerated]

theorem bigInts_ok {j : Json} : (∃ ns, bigInts L (.json j) = .ok ns) ↔ Visitable (Readable L) j :=
  mapM_entries_ok (fun j => by simp [bigIntOfValue_ok]) (fun s _ => by simp [Readable]) j

theorem rows_ok {j : Json} :
    (∃ rows, (Value.json j).entries.mapM (bigInts L) = .ok rows) ↔
      Visitable (Visitable (Readable L)) j :=
  mapM_entries_ok (fun _ => bigInts_ok) (fun s nonempty => by simpa [Visitable]) j

theorem scalar_ok {document : Json} {name : String} :
    (∃ n, scalar L (.json document) name = .ok n) ↔
      ∃ j, document.member? name = some j ∧ Readable L j := by
  have through : (∃ n, scalar L (.json document) name = .ok n) ↔
      ∃ j, (Value.json document).get name = .ok (.json j) ∧ Readable L j := by
    simp only [scalar, bind_eq_ok]
    constructor
    · rintro ⟨n, v, got, read⟩
      obtain ⟨j, rfl, readable⟩ := bigIntOfValue_ok.mp ⟨n, read⟩
      exact ⟨j, got, readable⟩
    · rintro ⟨j, got, readable⟩
      obtain ⟨n, read⟩ := bigIntOfValue_ok.mpr ⟨j, rfl, readable⟩
      exact ⟨n, _, got, read⟩
  rw [through]
  cases document with
  | obj members =>
      cases member : (Json.obj members).member? name with
      | none => simp [Value.get, member]
      | some j => simp [Value.get, member]
  | null => simp [Value.get, Json.member?]
  | bool b => simp [Value.get, Json.member?]
  | str s =>
      simp only [Value.get, Json.member?]
      split <;> simp
  | arr elements =>
      simp only [Value.get, Json.member?]
      split <;> simp
  | num l =>
      -- The members of a number are a string and a boolean, which have no `value`.
      simp only [Value.get, Json.member?]
      split
      · simp [Readable]
      · split <;> simp [Readable]

theorem length_ok {j : Json} :
    (∃ n, ((Value.json j).get "length" >>= bigInt L) = .ok n) ↔ Measurable L j := by
  cases j with
  | null => simp [Value.get, Measurable, bind, Except.bind]
  | bool b => simp [Value.get, bigInt, Measurable, bind, Except.bind]
  | str s => simp [Value.get, bigInt, Measurable, bind, Except.bind]
  | num l => simp [Value.get, bigInt, Measurable, bind, Except.bind]
  | arr elements => simp [Value.get, bigInt, Measurable, bind, Except.bind]
  | obj members =>
      simp only [Value.get, Measurable, Convertible, bind, Except.bind]
      cases (Json.obj members).member? "length" with
      | none => simp [bigInt]
      | some v => simp

/-- Reading the length itself fails on null and on nothing else. -/
theorem get_length_ok {j : Json} : (∃ v, (Value.json j).get "length" = .ok v) ↔ j ≠ .null := by
  cases j <;> simp [Value.get]

/-- A property of an object that has a length is one of its members. -/
theorem member_of_get {document j : Json} {name name' : String} {v length : Value}
    (object : document.member? name' = some j) (got : (Value.json document).get name = .ok v)
    (measured : v.get "length" = .ok length) :
    ∃ e, document.member? name = some e ∧ v = .json e := by
  rw [Value.get_of_member? object] at got
  cases member : document.member? name with
  | none =>
      rw [member] at got
      obtain rfl := Except.ok.inj got
      simp [Value.get] at measured
  | some e =>
      rw [member] at got
      exact ⟨e, rfl, (Except.ok.inj got).symm⟩

/-! ## The whole loader -/

theorem loadable_of_ok {document : Json} {params : Params}
    (h : loadParamsFromFile L document = .ok params) : Loadable L document := by
  simp only [loadParamsFromFile, bind_eq_ok] at h
  obtain ⟨modulus, hmodulus, r, hr, maxDegree, hmaxDegree, lambda, hlambda, rowsAmount,
    hrowsAmount, omega, homega, dOmegas, hdOmegas, dLength, hdLength, dCount, hdCount, ds, hds,
    stepList, hstepList, sLength, hsLength, ss, hss, arith, harith, aLength, haLength, as, has,
    rotations, hrotations, rows, hrows, _⟩ := h
  obtain ⟨first, object, _⟩ := scalar_ok.mp ⟨modulus, hmodulus⟩
  obtain ⟨d, memberD, rfl⟩ := member_of_get object hdOmegas hdLength
  obtain ⟨s, memberS, rfl⟩ := member_of_get object hstepList hsLength
  obtain ⟨a, memberA, rfl⟩ := member_of_get object harith haLength
  constructor
  · simp only [List.forall_mem_cons]
    exact ⟨scalar_ok.mp ⟨_, hmodulus⟩, scalar_ok.mp ⟨_, hr⟩, scalar_ok.mp ⟨_, hmaxDegree⟩,
      scalar_ok.mp ⟨_, hlambda⟩, scalar_ok.mp ⟨_, hrowsAmount⟩, scalar_ok.mp ⟨_, homega⟩,
      by simp⟩
  · have measured := length_ok.mp ⟨dCount, bind_eq_ok.mpr ⟨dLength, hdLength, hdCount⟩⟩
    exact ⟨d, memberD, measured, bigInts_ok.mp ⟨ds, hds⟩⟩
  · simp only [List.forall_mem_cons]
    exact ⟨⟨s, memberS, get_length_ok.mp ⟨_, hsLength⟩, bigInts_ok.mp ⟨ss, hss⟩⟩,
      ⟨a, memberA, get_length_ok.mp ⟨_, haLength⟩, bigInts_ok.mp ⟨as, has⟩⟩, by simp⟩
  · intro j member
    rw [Value.get_of_member? object, member] at hrotations
    obtain rfl := Except.ok.inj hrotations
    exact rows_ok.mp ⟨rows, hrows⟩

theorem ok_of_loadable {document : Json} (h : Loadable L document) :
    ∃ params, loadParamsFromFile L document = .ok params := by
  have scalars := h.scalars
  have lists := h.lists
  simp only [List.forall_mem_cons, ← scalar_ok] at scalars lists
  obtain ⟨⟨modulus, hmodulus⟩, ⟨r, hr⟩, ⟨maxDegree, hmaxDegree⟩, ⟨lambda, hlambda⟩,
    ⟨rowsAmount, hrowsAmount⟩, ⟨omega, homega⟩, _⟩ := scalars
  obtain ⟨d, memberD, measured, visitD⟩ := h.dOmegas
  obtain ⟨⟨s, memberS, notNullS, visitS⟩, ⟨a, memberA, notNullA, visitA⟩, _⟩ := lists
  have got := Value.get_of_member? memberD
  obtain ⟨dCount, hdCount⟩ := length_ok.mpr measured
  obtain ⟨dLength, hdLength, hdCount⟩ := bind_eq_ok.mp hdCount
  obtain ⟨ds, hds⟩ := bigInts_ok.mpr visitD
  obtain ⟨sLength, hsLength⟩ := get_length_ok.mpr notNullS
  obtain ⟨ss, hss⟩ := bigInts_ok.mpr visitS
  obtain ⟨aLength, haLength⟩ := get_length_ok.mpr notNullA
  obtain ⟨as, has⟩ := bigInts_ok.mpr visitA
  have rotations : ∃ rows, (((document.member? "columns_rotations").elim .undefined
      Value.json).entries.mapM (bigInts L)) = .ok rows := by
    cases member : document.member? "columns_rotations" with
    | none => exact ⟨[], rfl⟩
    | some j => exact rows_ok.mpr (h.columnsRotations j member)
  obtain ⟨rows, hrows⟩ := rotations
  simp only [loadParamsFromFile, bind_eq_ok]
  exact ⟨_, modulus, hmodulus, r, hr, maxDegree, hmaxDegree, lambda, hlambda, rowsAmount,
    hrowsAmount, omega, homega, .json d, by rw [got, memberD]; rfl, dLength, hdLength, dCount,
    hdCount, ds, hds, .json s, by rw [got, memberS]; rfl, sLength, hsLength, ss, hss, .json a,
    by rw [got, memberA]; rfl, aLength, haLength, as, has, _, got _, rows, hrows, rfl⟩

/-- The loader throws exactly on the documents that are not loadable. -/
theorem loadParamsFromFile_throws_iff (L : LosslessNumber) (document : Json) :
    (∃ e, loadParamsFromFile L document = .error e) ↔ ¬Loadable L document := by
  constructor
  · rintro ⟨e, thrown⟩ loadable
    obtain ⟨params, loaded⟩ := ok_of_loadable loadable
    rw [thrown] at loaded
    contradiction
  · intro rejected
    cases outcome : loadParamsFromFile L document with
    | error e => exact ⟨e, rfl⟩
    | ok params => exact absurd (loadable_of_ok outcome) rejected

/-- A file without rotations, with a string for one list and an object for another. -/
def incomplete : Json :=
  let one : Json := .num ⟨false, 1, none, none⟩
  .obj ([("modulus", one), ("r", one), ("max_degree", one), ("lambda", one),
    ("rows_amount", one), ("omega", .obj [(units "value".toList, .str (units "0x1f".toList))]),
    ("D_omegas", .arr [one]), ("step_list", .str []),
    ("arithmetization_params", .obj [])].map fun (name, j) => (units name.toList, j))

/-- It is loaded all the same. -/
theorem incomplete_loaded :
    incomplete.member? "columns_rotations" = none ∧
      loadParamsFromFile .ofText incomplete = .ok
        ⟨[.bigint 1, .bigint 1, .bigint 1, .bigint 1, .bigint 1, .bigint 31, .bigint 1, .bigint 1,
          .number 0, .undefined], []⟩ :=
  ⟨rfl, rfl⟩

end Tasks
