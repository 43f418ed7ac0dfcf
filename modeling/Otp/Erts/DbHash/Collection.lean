import Otp.Erts.DbHash.Table

/-!
# Keyed collections

What a table is for: to each key it holds the objects with that key in the order
of their insertion. A set holds one object per key at most, a bag holds no object
twice, a duplicate bag holds any number of copies. The operations of a history
and what they do to a collection.
-/

namespace Otp.Erts.DbHash

variable {κ ω : Type*}

/-- The objects of each key in the order of their insertion. -/
def Collection (κ ω : Type*) := κ → List ω

/-- The objects of a key after an object of that key is inserted. -/
def putObjects [DecidableEq ω] (type : TableType) (obj : ω) (objects : List ω) : List ω :=
  match type with
  | .set => [obj]
  | .bag => if obj ∈ objects then objects else objects ++ [obj]
  | .duplicateBag => objects ++ [obj]

/-- The operations of a history. -/
inductive Op (K : Keying κ ω) where
  | insert (obj : ω)
  | insertNew (obj : ω)
  | delete (k : κ)
  | deleteObject (obj : ω)
  | take (k : κ)
  | selectDelete (pattern : Pattern K) (iterUnsafe isThreadSafe : Bool) (random : ℕ)
  | fix
  | unfix

/-- What an operation answers; the number that `select_delete` answers is left out. -/
inductive Answer (ω : Type*) where
  | done
  | bool (b : Bool)
  | objects (objs : List ω)
deriving DecidableEq, Repr

section Operations

variable [DecidableEq κ] [DecidableEq ω] (K : Keying κ ω)

namespace Collection

def empty : Collection κ ω := fun _ => []

/-- The objects of one key replaced. -/
def update (C : Collection κ ω) (k : κ) (objects : List ω) : Collection κ ω :=
  Function.update C k objects

/-- An object is put in, unless it must be new and its key is not. -/
def put (type : TableType) (C : Collection κ ω) (obj : ω) (keyClashFail : Bool) :
    Collection κ ω × Bool :=
  if keyClashFail = true ∧ C (K.key obj) ≠ [] then (C, false)
  else (C.update (K.key obj) (putObjects type obj (C (K.key obj))), true)

/-- An operation on a collection. -/
def step (type : TableType) (C : Collection κ ω) : Op K → Collection κ ω × Answer ω
  | .insert obj => ((C.put K type obj false).1, .bool (C.put K type obj false).2)
  | .insertNew obj => ((C.put K type obj true).1, .bool (C.put K type obj true).2)
  | .delete k => (C.update k [], .done)
  | .deleteObject obj => (C.update (K.key obj) ((C (K.key obj)).filter (· ≠ obj)), .done)
  | .take k => (C.update k [], .objects (C k))
  | .selectDelete pattern _ _ _ => (fun k => (C k).filter (!pattern.accepts ·), .done)
  | .fix => (C, .done)
  | .unfix => (C, .done)

/-- A history on a collection: what is left of it, and the answers. -/
def run (type : TableType) (C : Collection κ ω) : List (Op K) → Collection κ ω × List (Answer ω)
  | [] => (C, [])
  | op :: ops =>
    let r := run type (C.step K type op).1 ops
    (r.1, (C.step K type op).2 :: r.2)

end Collection

/-- An operation on a table. -/
def step (tb : DbTableHash ω) : Op K → DbTableHash ω × Answer ω
  | .insert obj => ((dbPutHash K tb obj false).1, .bool (dbPutHash K tb obj false).2)
  | .insertNew obj => ((dbPutHash K tb obj true).1, .bool (dbPutHash K tb obj true).2)
  | .delete k => (dbEraseHash K tb k, .done)
  | .deleteObject obj => (dbEraseObjectHash K tb obj, .done)
  | .take k => ((dbTakeHash K tb k).1, .objects (dbTakeHash K tb k).2)
  | .selectDelete pattern iterUnsafe isThreadSafe random =>
    ((etsSelectDelete K tb pattern iterUnsafe isThreadSafe random).1, .done)
  | .fix => (fixTable tb, .done)
  | .unfix => (unfixTable tb, .done)

/-- A history on a table. -/
def run (tb : DbTableHash ω) : List (Op K) → DbTableHash ω × List (Answer ω)
  | [] => (tb, [])
  | op :: ops =>
    let r := run (step K tb op).1 ops
    (r.1, (step K tb op).2 :: r.2)

end Operations

end Otp.Erts.DbHash
