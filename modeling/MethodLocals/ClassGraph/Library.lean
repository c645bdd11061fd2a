import MethodLocals.ClassGraph

/-! The library classes that method bodies use most often. -/

namespace MethodLocals

namespace BinaryName

def arithmeticException : BinaryName := ⟨"java/lang/ArithmeticException", rfl⟩
def arrayList : BinaryName := ⟨"java/util/ArrayList", rfl⟩
def charSequence : BinaryName := ⟨"java/lang/CharSequence", rfl⟩
def cloneable : BinaryName := ⟨"java/lang/Cloneable", rfl⟩
def collection : BinaryName := ⟨"java/util/Collection", rfl⟩
def comparable : BinaryName := ⟨"java/lang/Comparable", rfl⟩
def boxedDouble : BinaryName := ⟨"java/lang/Double", rfl⟩
def errorClass : BinaryName := ⟨"java/lang/Error", rfl⟩
def exception : BinaryName := ⟨"java/lang/Exception", rfl⟩
def boxedFloat : BinaryName := ⟨"java/lang/Float", rfl⟩
def hashMap : BinaryName := ⟨"java/util/HashMap", rfl⟩
def illegalArgumentException : BinaryName := ⟨"java/lang/IllegalArgumentException", rfl⟩
def boxedInteger : BinaryName := ⟨"java/lang/Integer", rfl⟩
def listInterface : BinaryName := ⟨"java/util/List", rfl⟩
def boxedLong : BinaryName := ⟨"java/lang/Long", rfl⟩
def mapInterface : BinaryName := ⟨"java/util/Map", rfl⟩
def number : BinaryName := ⟨"java/lang/Number", rfl⟩
def runtimeException : BinaryName := ⟨"java/lang/RuntimeException", rfl⟩
def serializable : BinaryName := ⟨"java/io/Serializable", rfl⟩
def stringBuilder : BinaryName := ⟨"java/lang/StringBuilder", rfl⟩
def throwable : BinaryName := ⟨"java/lang/Throwable", rfl⟩

end BinaryName

namespace ClassGraph

open BinaryName

private def openFlags : ClassFlags := .ofList [ClassFlag.public, ClassFlag.super]

private def finalFlags : ClassFlags :=
  .ofList [ClassFlag.public, ClassFlag.super, ClassFlag.final]

private def abstractFlags : ClassFlags :=
  .ofList [ClassFlag.public, ClassFlag.super, ClassFlag.abstract]

private def libraryInterfaces : List ClassInfo :=
  [.interface serializable [],
   .interface cloneable [],
   .interface comparable [],
   .interface charSequence [],
   .interface collection [],
   .interface listInterface [collection],
   .interface mapInterface []]

private def valueClasses : List ClassInfo :=
  [⟨string, some object, [serializable, comparable, charSequence], finalFlags⟩,
   ⟨stringBuilder, some object, [serializable, charSequence], finalFlags⟩,
   ⟨classObject, some object, [serializable], finalFlags⟩,
   ⟨number, some object, [serializable], abstractFlags⟩,
   ⟨boxedInteger, some number, [comparable], finalFlags⟩,
   ⟨boxedLong, some number, [comparable], finalFlags⟩,
   ⟨boxedFloat, some number, [comparable], finalFlags⟩,
   ⟨boxedDouble, some number, [comparable], finalFlags⟩]

private def throwableClasses : List ClassInfo :=
  [⟨throwable, some object, [serializable], openFlags⟩,
   ⟨errorClass, some throwable, [], openFlags⟩,
   ⟨exception, some throwable, [], openFlags⟩,
   ⟨runtimeException, some exception, [], openFlags⟩,
   ⟨arithmeticException, some runtimeException, [], openFlags⟩,
   ⟨illegalArgumentException, some runtimeException, [], openFlags⟩]

private def containerClasses : List ClassInfo :=
  [⟨arrayList, some object, [listInterface, cloneable, serializable], openFlags⟩,
   ⟨hashMap, some object, [mapInterface, cloneable, serializable], openFlags⟩]

/-- The class of all objects, common interfaces, values, exceptions and containers. -/
def libraryTypes : List ClassInfo :=
  ⟨object, none, [], openFlags⟩ :: libraryInterfaces ++ valueClasses ++ throwableClasses ++
    containerClasses

def insertLibrary (g : ClassGraph) : ClassGraph := g.insertAll libraryTypes

end ClassGraph

end MethodLocals
