import Shader.DataType.Promotion
import Shader.DataType.Block

/-!
# Value types

The type of a value as far as it is known: a data type, the mark of a type that could not be
determined, or a number that no type has. The last two share every property: they have no
components, no size and no arithmetic.
-/

namespace Shader

/-- A data type or one of the marks that stand where there is none. -/
inductive ValueType where
  /-- a data type -/
  | data (t : DataType)
  /-- a type that could not be determined -/
  | error
  /-- a number that is no type's number -/
  | unlisted (code : Int)
  deriving DecidableEq, Repr

namespace ValueType

instance : Coe DataType ValueType := ⟨data⟩

/-- The type with the given number; the mark of an undetermined type comes after all types. -/
def ofCode (code : Int) : ValueType :=
  match code with
  | .ofNat n =>
    match DataType.all[n]? with
    | some t => data t
    | none => if n = DataType.all.length then error else unlisted code
  | .negSucc _ => unlisted code

/-- The number of the type. -/
def code : ValueType → Int
  | data t => t.code
  | error => DataType.all.length
  | unlisted code => code

/-- The type that a text spells, an undetermined one if it spells none. -/
def ofName (text : String) : ValueType :=
  match DataType.ofName? text with
  | some t => t
  | none => error

/-- The data type, or the mark of an undetermined one. -/
def ofOption : Option DataType → ValueType
  | some t => t
  | none => error

/-- The data type, if there is one. -/
def data? : ValueType → Option DataType
  | data t => some t
  | _ => none

/-- The spelling of the type. -/
def name : ValueType → String
  | data t => t.name
  | error => "error"
  | unlisted code => "AstType(" ++ toString code ++ ")"

/-- Whether a data type, if there is one, has a property. -/
def holds (p : DataType → Bool) (t : ValueType) : Bool := t.data?.any p

/-- Data types, `void` included. -/
def isValid (t : ValueType) : Bool := t.data?.isSome

/-- The component of a vector, the column of a matrix, and a scalar itself. -/
def element (t : ValueType) : ValueType := ofOption (t.data?.bind DataType.element?)

/-- The type of the numbers that a value is made of, if it is made of any. -/
def component? (t : ValueType) : Option ScalarType := t.data?.bind DataType.component?

/-- The number of components of a vector, of columns of a matrix, one for a scalar. -/
def length (t : ValueType) : Nat := (t.data?.map DataType.length).getD 0

/-- The number of scalars that a value holds. -/
def components (t : ValueType) : Nat := (t.data?.map DataType.components).getD 0

/-- The size of a value in a uniform block. -/
def byteSize (t : ValueType) : Int64 := (t.data?.map DataType.byteSize).getD 0

/-- The alignment of a value in a uniform block. -/
def alignment (t : ValueType) : Int64 := (t.data?.map DataType.alignment).getD 1

/-- The properties of a type as one number, a power of two for each. -/
def flags (t : ValueType) : Nat :=
  let flag (p : DataType → Bool) (value : Nat) : Nat := if t.holds p then value else 0
  flag DataType.isBoolean 1 + flag DataType.isInteger 2 + flag DataType.isUnsigned 4 +
    flag DataType.isFloating 8 + flag DataType.isScalar 16 + flag DataType.isVector 32 +
    flag DataType.isMatrix 64

/-- The common type of the operands of an arithmetic operator. -/
def promote (x y : ValueType) : ValueType :=
  ofOption (x.data?.bind fun a => y.data?.bind fun b => a.promote? b)

/-- Whether a value of the first type converts implicitly to the second. -/
def convertible (x y : ValueType) : Bool :=
  x.data?.any fun a => y.data?.any fun b => a.convertible b

/-- The vector of `n` components of a scalar type, the scalar type itself for one component. -/
def vectorOf (t : ValueType) (n : Int) : ValueType :=
  match t with
  | data (.scalar s) =>
    if n = 1 then DataType.scalar s
    else ofOption ((Dim.ofNat? n.toNat).map (DataType.vector s))
  | _ => error

/-- The square matrix with `n` columns. -/
def matrixOf (n : Int) : ValueType := ofOption ((Dim.ofNat? n.toNat).map DataType.matrix)

/-- The offsets of the members of a uniform block and its size. -/
def blockLayout (members : List ValueType) : List Int64 × Int64 :=
  Block.layout (members.map fun t => (t.byteSize, t.alignment))

end ValueType

end Shader
