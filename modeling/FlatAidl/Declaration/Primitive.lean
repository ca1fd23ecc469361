import FlatAidl.Text.Basic

/-!
The built-in types: their HIDL names, which are also how they are read, and their AIDL names. AIDL
has no unsigned numbers, so each takes the name of the signed type of its width, and it has nothing
for a raw pointer.
-/

namespace FlatAidl

inductive Primitive where
  | bool | int8 | uint8 | int16 | uint16 | int32 | uint32 | int64 | uint64
  | float | double | string | handle | memory | pointer
deriving DecidableEq

namespace Primitive

def all : List Primitive :=
  [bool, int8, uint8, int16, uint16, int32, uint32, int64, uint64, float, double, string, handle,
    memory, pointer]

def hidl : Primitive → Text
  | bool => Text.ofString "bool"
  | int8 => Text.ofString "int8_t"
  | uint8 => Text.ofString "uint8_t"
  | int16 => Text.ofString "int16_t"
  | uint16 => Text.ofString "uint16_t"
  | int32 => Text.ofString "int32_t"
  | uint32 => Text.ofString "uint32_t"
  | int64 => Text.ofString "int64_t"
  | uint64 => Text.ofString "uint64_t"
  | float => Text.ofString "float"
  | double => Text.ofString "double"
  | string => Text.ofString "string"
  | handle => Text.ofString "handle"
  | memory => Text.ofString "memory"
  | pointer => Text.ofString "pointer"

/-- The AIDL name of a built-in type, if AIDL has the type. -/
def aidl? : Primitive → Option Text
  | bool => some (Text.ofString "boolean")
  | int8 | uint8 => some (Text.ofString "byte")
  | int16 | uint16 => some (Text.ofString "char")
  | int32 | uint32 => some (Text.ofString "int")
  | int64 | uint64 => some (Text.ofString "long")
  | float => some (Text.ofString "float")
  | double => some (Text.ofString "double")
  | string => some (Text.ofString "String")
  | handle => some (Text.ofString "android.hardware.common.NativeHandle")
  | memory => some (Text.ofString "android.hardware.common.Ashmem")
  | pointer => none

def read? (t : Text) : Option Primitive :=
  all.find? fun p => p.hidl == t

/-- What is said about a text that names no built-in type. -/
def unknownMessage (t : Text) : Text :=
  '\'' :: t ++ Text.ofString "' is not a HIDL primitive type"

end Primitive

end FlatAidl
