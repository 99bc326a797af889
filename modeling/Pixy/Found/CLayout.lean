import Mathlib.Data.Nat.Notation
import Mathlib.Tactic.Common

/-!
# How C lays out a struct

Sizes, alignments and offsets as a C compiler for a 64-bit target chooses them: the fields in
declaration order, each at the next multiple of its alignment, and the whole rounded up to the
alignment of the struct. A scalar is aligned to its size.

* `Fields.offsetOf` is `offsetof`;
* `Fields.cells` lists the scalars of a struct, each with its offset and with the names that lead to
  it, and `Fields.cellAt` finds the one that begins at an offset.

Nothing here mentions the program.
-/

namespace Pixy.Found

universe u

variable {N : Type u}

mutual

/-- A type whose values have a fixed size. -/
inductive CType (N : Type u)
  /-- A number or a pointer. -/
  | scalar (size : ℕ)
  /-- A struct. -/
  | struct (fields : Fields N)

/-- The fields of a struct, in declaration order. -/
inductive Fields (N : Type u)
  | nil
  | cons (name : N) (type : CType N) (rest : Fields N)

end

/-- The next multiple of the alignment. -/
def roundUp (offset alignment : ℕ) : ℕ := (offset + alignment - 1) / alignment * alignment

mutual

/-- `_Alignof`. -/
def CType.alignment : CType N → ℕ
  | .scalar size => size
  | .struct fields => fields.alignment

/-- The strictest alignment of the fields. -/
def Fields.alignment : Fields N → ℕ
  | .nil => 1
  | .cons _ type rest => max type.alignment rest.alignment

end

mutual

/-- `sizeof`. -/
def CType.size : CType N → ℕ
  | .scalar size => size
  | .struct fields => roundUp (fields.finish 0) fields.alignment

/-- Where the last field ends if the first one may begin at the offset. -/
def Fields.finish : Fields N → ℕ → ℕ
  | .nil, offset => offset
  | .cons _ type rest, offset => rest.finish (roundUp offset type.alignment + type.size)

end

/-- The offset of a field, if the first one may begin at the offset given. -/
def Fields.offsetFrom [DecidableEq N] (name : N) : Fields N → ℕ → Option ℕ
  | .nil, _ => none
  | .cons other type rest, offset =>
    let offset := roundUp offset type.alignment
    if other = name then some offset else rest.offsetFrom name (offset + type.size)

/-- `offsetof`; a compiler accepts it for the name of a field only. -/
def Fields.offsetOf [DecidableEq N] (fields : Fields N) (name : N) : ℕ :=
  (fields.offsetFrom name 0).getD 0

mutual

/-- The scalars of a value that begins at an address. -/
def CType.cells : CType N → ℕ → List (ℕ × List N)
  | .scalar _, base => [(base, [])]
  | .struct fields, base => fields.cellsFrom base 0

/-- The scalars of the fields, if the first one may begin at the offset. -/
def Fields.cellsFrom : Fields N → ℕ → ℕ → List (ℕ × List N)
  | .nil, _, _ => []
  | .cons name type rest, base, offset =>
    let offset := roundUp offset type.alignment
    (type.cells (base + offset)).map (fun cell => (cell.1, name :: cell.2)) ++
      rest.cellsFrom base (offset + type.size)

end

/-- The scalars of a struct at address zero. -/
def Fields.cells (fields : Fields N) : List (ℕ × List N) := fields.cellsFrom 0 0

/-- The scalar that begins at an offset. -/
def Fields.cellAt (fields : Fields N) (offset : ℕ) : Option (List N) :=
  (fields.cells.find? fun cell => cell.1 = offset).map (·.2)

end Pixy.Found
