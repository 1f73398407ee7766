import RpcLock.Marshall.Buffer
import RpcLock.Library.SortedMap

/-!
# The marshallable types

The types with an `operator<<` and an `operator>>`, closed under `std::vector`
and `std::map`.  A type comes with the order of `std::less`, which maps need for
their keys: `char` is signed, strings compare their bytes as unsigned numbers,
containers compare lexicographically.

The operators of the containers are templates, so theirs take the operators of
the elements as arguments.
-/

namespace RpcLock

/-- `std::string`. -/
abbrev StdString : Type := List UInt8

inductive Ty where
  | bool
  | char
  | uchar
  | short
  | ushort
  | int
  | uint
  | ulonglong
  | string
  | vector (t : Ty)
  | map (a b : Ty)
deriving DecidableEq, Repr

/-- A type with its order. -/
structure OrdType where
  carrier : Type
  order : LinearOrder carrier

namespace Ty

/-- The values of a type and their order. -/
def ord : Ty → OrdType
  | bool => ⟨Bool, inferInstance⟩
  | char => ⟨Int8, WordOrder.linearOrderInt8⟩
  | uchar => ⟨UInt8, WordOrder.linearOrderUInt8⟩
  | short => ⟨Int16, WordOrder.linearOrderInt16⟩
  | ushort => ⟨UInt16, WordOrder.linearOrderUInt16⟩
  | int => ⟨Int32, WordOrder.linearOrderInt32⟩
  | uint => ⟨UInt32, WordOrder.linearOrderUInt32⟩
  | ulonglong => ⟨UInt64, WordOrder.linearOrderUInt64⟩
  | string => ⟨StdString, inferInstance⟩
  | vector t =>
      letI := t.ord.order
      ⟨List t.ord.carrier, inferInstance⟩
  | map a b =>
      letI := a.ord.order
      letI := b.ord.order
      ⟨SortedMap a.ord.carrier b.ord.carrier, SortedMap.linearOrder⟩

/-- The values of a type. -/
abbrev den (t : Ty) : Type := t.ord.carrier

instance linearOrder (t : Ty) : LinearOrder t.den := t.ord.order

/-- A default-constructed object.  A number is not initialized, and no
`operator>>` reads it. -/
def fresh : (t : Ty) → t.den
  | .bool => false
  | .char => (0 : Int8)
  | .uchar => (0 : UInt8)
  | .short => (0 : Int16)
  | .ushort => (0 : UInt16)
  | .int => (0 : Int32)
  | .uint => (0 : UInt32)
  | .ulonglong => (0 : UInt64)
  | .string => ([] : StdString)
  | .vector _ => []
  | .map _ _ => SortedMap.empty

end Ty

/-- A value of a marshallable type. -/
abbrev Value : Type := (t : Ty) × t.den

/-! ## `operator<<` -/

namespace Marshall

def putBool (m : Marshall) (x : Bool) : Option Marshall := m.rawbyte (if x then 1 else 0)

def putUChar (m : Marshall) (x : UInt8) : Option Marshall := m.rawbyte x

def putChar (m : Marshall) (x : Int8) : Option Marshall := m.putUChar x.toUInt8

def putUShort (m : Marshall) (x : UInt16) : Option Marshall := m.putWord 2 x.toNat

def putShort (m : Marshall) (x : Int16) : Option Marshall := m.putUShort x.toUInt16

def putUInt (m : Marshall) (x : UInt32) : Option Marshall := m.putWord 4 x.toNat

def putInt (m : Marshall) (x : Int32) : Option Marshall := m.putUInt x.toUInt32

def putString (m : Marshall) (s : StdString) : Option Marshall :=
  (m.putUInt (UInt32.ofNat s.length)).bind fun m => m.rawbytes s

def putULongLong (m : Marshall) (x : UInt64) : Option Marshall :=
  (m.putUInt (x >>> 32).toUInt32).bind fun m => m.putUInt x.toUInt32

/-- The elements one after the other. -/
def putElems {α : Type} (put : Marshall → α → Option Marshall) (m : Marshall) :
    List α → Option Marshall
  | [] => some m
  | x :: xs => (put m x).bind fun m => putElems put m xs

def putVector {α : Type} (put : Marshall → α → Option Marshall) (m : Marshall) (v : List α) :
    Option Marshall :=
  (m.putUInt (UInt32.ofNat v.length)).bind fun m => putElems put m v

def putMap {α β : Type} [LinearOrder α] (putKey : Marshall → α → Option Marshall)
    (putVal : Marshall → β → Option Marshall) (m : Marshall) (d : SortedMap α β) :
    Option Marshall :=
  (m.putUInt (UInt32.ofNat d.entries.length)).bind fun m =>
    putElems (fun m p => (putKey m p.1).bind fun m => putVal m p.2) m d.entries

/-- `operator<<` at each type. -/
def put : (t : Ty) → Marshall → t.den → Option Marshall
  | .bool => putBool
  | .char => putChar
  | .uchar => putUChar
  | .short => putShort
  | .ushort => putUShort
  | .int => putInt
  | .uint => putUInt
  | .ulonglong => putULongLong
  | .string => putString
  | .vector t => putVector (put t)
  | .map a b => putMap (put a) (put b)

/-- `m << v₁ << v₂ ...`. -/
def putAll (m : Marshall) (vs : List Value) : Option Marshall :=
  putElems (fun m (v : Value) => put v.1 m v.2) m vs

end Marshall

/-! ## `operator>>` -/

namespace Unmarshall

def getBool (u : Unmarshall) : Bool × Unmarshall :=
  let (b, u) := u.rawbyte
  (b != 0, u)

def getUChar (u : Unmarshall) : UInt8 × Unmarshall :=
  let (b, u) := u.rawbyte
  (b.toUInt8, u)

def getChar (u : Unmarshall) : Int8 × Unmarshall :=
  let (b, u) := u.rawbyte
  (b.toUInt8.toInt8, u)

def getUShort (u : Unmarshall) : UInt16 × Unmarshall :=
  let (x, u) := u.getWord 2
  (UInt16.ofNat x, u)

def getShort (u : Unmarshall) : Int16 × Unmarshall :=
  let (x, u) := u.getWord 2
  ((UInt16.ofNat x).toInt16, u)

def getUInt (u : Unmarshall) : UInt32 × Unmarshall :=
  let (x, u) := u.getWord 4
  (UInt32.ofNat x, u)

def getInt (u : Unmarshall) : Int32 × Unmarshall :=
  let (x, u) := u.getWord 4
  ((UInt32.ofNat x).toInt32, u)

def getULongLong (u : Unmarshall) : UInt64 × Unmarshall :=
  let (h, u) := u.getUInt
  let (l, u) := u.getUInt
  (l.toUInt64 ||| (h.toUInt64 <<< 32), u)

/-- `s` is what the target held before. -/
def getString (s : StdString) (u : Unmarshall) : StdString × Unmarshall :=
  let (sz, u) := u.getUInt
  if u.ok then u.rawbytes s sz else (s, u)

/-- The loop of the vector: `get` extracts into a fresh element. -/
def getElems {α : Type} (get : Unmarshall → α × Unmarshall) :
    Nat → List α → Unmarshall → List α × Unmarshall
  | 0, v, u => (v, u)
  | n + 1, v, u =>
      let (z, u) := get u
      getElems get n (v ++ [z]) u

/-- The elements are added behind those that `v` held before. -/
def getVector {α : Type} (get : Unmarshall → α × Unmarshall) (v : List α) (u : Unmarshall) :
    List α × Unmarshall :=
  let (n, u) := u.getUInt
  getElems get n.toNat v u

/-- The loop of the map. -/
def getEntries {α β : Type} [LinearOrder α] (getKey : Unmarshall → α × Unmarshall)
    (getVal : Unmarshall → β × Unmarshall) :
    Nat → SortedMap α β → Unmarshall → SortedMap α β × Unmarshall
  | 0, d, u => (d, u)
  | n + 1, d, u =>
      let (a, u) := getKey u
      let (b, u) := getVal u
      getEntries getKey getVal n (d.set a b) u

/-- The target is cleared first. -/
def getMap {α β : Type} [LinearOrder α] (getKey : Unmarshall → α × Unmarshall)
    (getVal : Unmarshall → β × Unmarshall) (u : Unmarshall) : SortedMap α β × Unmarshall :=
  let (n, u) := u.getUInt
  getEntries getKey getVal n.toNat .empty u

/-- `operator>>` at each type, with what the target held before.  The elements of
a container are fresh objects. -/
def getInto : (t : Ty) → t.den → Unmarshall → t.den × Unmarshall
  | .bool => fun _ => getBool
  | .char => fun _ => getChar
  | .uchar => fun _ => getUChar
  | .short => fun _ => getShort
  | .ushort => fun _ => getUShort
  | .int => fun _ => getInt
  | .uint => fun _ => getUInt
  | .ulonglong => fun _ => getULongLong
  | .string => getString
  | .vector t => getVector (getInto t t.fresh)
  | .map a b => fun _ => getMap (getInto a a.fresh) (getInto b b.fresh)

/-- `operator>>` into a fresh object. -/
def get (t : Ty) : Unmarshall → t.den × Unmarshall := getInto t t.fresh

/-- `u >> x₁ >> x₂ ...` into fresh objects of these types. -/
def getAll : List Ty → Unmarshall → List Value × Unmarshall
  | [], u => ([], u)
  | t :: ts, u =>
      let (x, u) := get t u
      let (vs, u) := getAll ts u
      (⟨t, x⟩ :: vs, u)

end Unmarshall

end RpcLock
