import TypeTag.SymbolTable.Types

namespace TypeTag

/-- A small hierarchy to draw samples from:

    Iterable[+A] <- Seq[+A] <- List[+A], which is a Product too
    Product <- Option[+A] <- Some[+A] and the object None, an Option[Nothing]
    Iterable[Tuple2[K, V]] <- Map[K, +V]
    Function1[-T1, +R], Either[+L, +R], Functor[F[_]]
    object Predef with the aliases Str, Id[A] and StrMap[+V] -/
structure Standard where
  table : SymbolTable
  scala : SymbolId
  int : SymbolId
  string : SymbolId
  product : SymbolId
  iterable : SymbolId
  seq : SymbolId
  list : SymbolId
  option : SymbolId
  some : SymbolId
  none : SymbolId
  tuple2 : SymbolId
  map : SymbolId
  function1 : SymbolId
  either : SymbolId
  functor : SymbolId
  predef : SymbolId
  strAlias : SymbolId
  idAlias : SymbolId
  strMapAlias : SymbolId

namespace Standard

abbrev Setup := StateM SymbolTable

namespace Setup

def cls (owner : SymbolId) (name : String) : Setup SymbolId :=
  fun u ↦ u.cls owner name

def object (owner : SymbolId) (name : String) : Setup SymbolId :=
  fun u ↦ u.object owner name

def typeParam (owner : SymbolId) (name : String) (v : Variance) : Setup SymbolId :=
  fun u ↦ u.typeParam owner name v

def typeAlias (owner : SymbolId) (name : String) : Setup SymbolId :=
  fun u ↦ u.typeAlias owner name

def setParents (s : SymbolId) (parents : SymbolTable → List Ty) : Setup Unit :=
  fun u ↦ ((), u.setParents s (parents u))

def setBody (s : SymbolId) (body : SymbolTable → Ty) : Setup Unit :=
  fun u ↦ ((), u.setBody s (body u))

end Setup

open Setup in
def setup : Setup (SymbolTable → Standard) := do
  let scala ← fun u ↦ u.package Option.none "scala"
  let int ← cls scala "Int"
  let string ← cls scala "String"
  let product ← cls scala "Product"
  let iterable ← cls scala "Iterable"
  let _ ← typeParam iterable "A" .covariant
  let seq ← cls scala "Seq"
  let seqA ← typeParam seq "A" .covariant
  setParents seq fun u ↦ [u.applied iterable [u.typeRef seqA]]
  let list ← cls scala "List"
  let listA ← typeParam list "A" .covariant
  setParents list fun u ↦ [u.applied seq [u.typeRef listA], u.typeRef product]
  let option ← cls scala "Option"
  let _ ← typeParam option "A" .covariant
  setParents option fun u ↦ [u.typeRef product]
  let some ← cls scala "Some"
  let someA ← typeParam some "A" .covariant
  setParents some fun u ↦ [u.applied option [u.typeRef someA]]
  let none ← object scala "None"
  setParents none fun u ↦ [u.applied option [u.nothingType]]
  let tuple2 ← cls scala "Tuple2"
  let _ ← typeParam tuple2 "T1" .covariant
  let _ ← typeParam tuple2 "T2" .covariant
  setParents tuple2 fun u ↦ [u.typeRef product]
  let map ← cls scala "Map"
  let mapK ← typeParam map "K" .invariant
  let mapV ← typeParam map "V" .covariant
  setParents map fun u ↦
    [u.applied iterable [u.applied tuple2 [u.typeRef mapK, u.typeRef mapV]]]
  let function1 ← cls scala "Function1"
  let _ ← typeParam function1 "T1" .contravariant
  let _ ← typeParam function1 "R" .covariant
  let either ← cls scala "Either"
  let _ ← typeParam either "L" .covariant
  let _ ← typeParam either "R" .covariant
  setParents either fun u ↦ [u.typeRef product]
  let functor ← cls scala "Functor"
  let functorF ← typeParam functor "F" .invariant
  let _ ← typeParam functorF "_" .invariant
  let predef ← object scala "Predef"
  let strAlias ← typeAlias predef "Str"
  setBody strAlias fun u ↦ u.typeRef string
  let idAlias ← typeAlias predef "Id"
  let idA ← typeParam idAlias "A" .invariant
  setBody idAlias fun u ↦ u.typeRef idA
  let strMapAlias ← typeAlias predef "StrMap"
  let strMapV ← typeParam strMapAlias "V" .covariant
  setBody strMapAlias fun u ↦ u.applied map [u.typeRef string, u.typeRef strMapV]
  return fun table ↦
    { table, scala, int, string, product, iterable, seq, list, option, some, none, tuple2, map,
      function1, either, functor, predef, strAlias, idAlias, strMapAlias }

end Standard

def standard : Standard :=
  let (build, u) := Standard.setup.run .initial
  build u

namespace Standard

variable (s : Standard)

def samples : List (String × Ty) :=
  let u := s.table
  let int := u.typeRef s.int
  let string := u.typeRef s.string
  [("Int", int),
   ("String", string),
   ("List", u.typeRef s.list),
   ("List[Int]", u.applied s.list [int]),
   ("Option[String]", u.applied s.option [string]),
   ("Some[Int]", u.applied s.some [int]),
   ("None.type", u.single s.none),
   ("Map[String, Int]", u.applied s.map [string, int]),
   ("Function1[Int, String]", u.applied s.function1 [int, string]),
   ("Either[String, Int]", u.applied s.either [string, int]),
   ("Functor[List]", u.applied s.functor [u.typeRef s.list]),
   ("Predef.Str", u.typeRef s.strAlias),
   ("Predef.StrMap", u.typeRef s.strMapAlias),
   ("Predef.StrMap[Int]", u.applied s.strMapAlias [int]),
   ("Iterable[Int] with Product",
     .refined [u.applied s.iterable [int], u.typeRef s.product] []),
   ("\"42\"", .constant "42")]

def sample? (name : String) : Option Ty :=
  s.samples.lookup name

end Standard

end TypeTag
