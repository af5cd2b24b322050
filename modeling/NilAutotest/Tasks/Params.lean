import NilAutotest.JavaScript.Value
import NilAutotest.Control.Except

/-!
# Loading circuit parameters

`loadParamsFromFile` flattens a parameter file into one list: six scalars, then three
lists, each with its length in front of it. The length of `D_omegas` is converted to a big
integer, the other two lengths are pushed as they are. Nothing is validated; a malformed
file is noticed only when a property access or a conversion throws.
-/

namespace Tasks

open JavaScript

/-- `BigInt(v.value)`. -/
def bigIntOfValue (L : LosslessNumber) (v : Value) : Except Error Int := do
  let value ← v.get "value"
  bigInt L value

/-- The parameters handed to the transaction builder. -/
structure Params where
  initParams : List Value
  columnsRotations : List (List Int)

/-- `BigInt(named_params.name.value)`. -/
def scalar (L : LosslessNumber) (namedParams : Value) (name : String) : Except Error Int := do
  let field ← namedParams.get name
  bigIntOfValue L field

/-- The values that a loop `for (let i in v)` pushes. -/
def bigInts (L : LosslessNumber) (v : Value) : Except Error (List Int) :=
  v.entries.mapM (bigIntOfValue L)

/-- The function after it has read and parsed its file. -/
def loadParamsFromFile (L : LosslessNumber) (document : Json) : Except Error Params := do
  let namedParams := Value.json document
  let modulus ← scalar L namedParams "modulus"
  let r ← scalar L namedParams "r"
  let maxDegree ← scalar L namedParams "max_degree"
  let lambda ← scalar L namedParams "lambda"
  let rowsAmount ← scalar L namedParams "rows_amount"
  let omega ← scalar L namedParams "omega"
  let dOmegas ← namedParams.get "D_omegas"
  let dOmegasLength ← dOmegas.get "length"
  let dOmegasCount ← bigInt L dOmegasLength
  let dOmegas ← bigInts L dOmegas
  let stepList ← namedParams.get "step_list"
  let stepListLength ← stepList.get "length"
  let stepList ← bigInts L stepList
  let arithmetizationParams ← namedParams.get "arithmetization_params"
  let arithmetizationParamsLength ← arithmetizationParams.get "length"
  let arithmetizationParams ← bigInts L arithmetizationParams
  let columnsRotations ← namedParams.get "columns_rotations"
  let columnsRotations ← columnsRotations.entries.mapM (bigInts L)
  pure {
    initParams := [modulus, r, maxDegree, lambda, rowsAmount, omega].map .bigint ++
      (.bigint dOmegasCount :: dOmegas.map .bigint ++
        (stepListLength :: stepList.map .bigint ++
          (arithmetizationParamsLength :: arithmetizationParams.map .bigint)))
    columnsRotations }

def getAccountVerifierParams (L : LosslessNumber) (verifierParams : Json) :
    Except Error Params :=
  loadParamsFromFile L verifierParams

/-- The parameters of the two proofs of a state. -/
structure StateParams where
  initParams : List (List Value)
  columnsRotations : List (List (List Int))

def getStateVerifierParams (L : LosslessNumber) (baseParams scalarParams : Json) :
    Except Error StateParams := do
  let base ← loadParamsFromFile L baseParams
  let scalars ← loadParamsFromFile L scalarParams
  pure {
    initParams := [[.number 26048, .number 22920], base.initParams, scalars.initParams]
    columnsRotations := [base.columnsRotations, scalars.columnsRotations] }

end Tasks
