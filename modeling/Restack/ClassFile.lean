import Restack.Layout.Assembly
import Restack.Layout.Slots
import Restack.Pass.Simplify
import Restack.Selection.Compile

set_option autoImplicit false

namespace Restack

namespace ClassFile

/-- Flags that mean the same in a class file, for classes, fields and methods. -/
def classFlags : UInt32 := 0x7631
def fieldFlags : UInt32 := 0x50df
def methodFlags : UInt32 := 0x1dff

def superFlag : UInt32 := 0x20

def classAccess (access : UInt32) : UInt16 :=
  let kept := access &&& classFlags
  (if Register.Flags.isInterface kept then kept else kept ||| superFlag).toUInt16

def count {α : Type} (xs : List α) : Bytes := Bytes.ofUInt16 xs.length.toUInt16

def withinPool {α : Type} (place : Place) (x : PoolM α) : PoolM α := ExceptT.mk fun p =>
  let (result, p) := x.run p
  (within place result, p)

theorem withinPool_eq_ok {α : Type} {place : Place} {m : PoolM α} {a : α} {p later : Pool}
    (done : (withinPool place m).run p = (.ok a, later)) : m.run p = (.ok a, later) := by
  obtain ⟨outcome, rfl⟩ := Prod.mk.inj done
  exact Prod.ext (within_eq_ok outcome) rfl

/-- The pool entry of a field's initial value. The field's type decides what kind of entry it is. -/
def constantIndex (descriptor : String) (value : FieldConstant) : PoolM UInt16 :=
  match descriptor, value with
  | "Z", .int v | "B", .int v | "S", .int v | "C", .int v | "I", .int v => PoolM.request (.int v)
  | "F", .int v => PoolM.request (.float v.toUInt32)
  | "J", .long v => PoolM.request (.long v)
  | "D", .long v => PoolM.request (.double v.toUInt64)
  | "Ljava/lang/String;", .string s => PoolM.stringRef s
  | "Ljava/lang/Class;", .type name => PoolM.classRef name
  | _, _ => throw (.ofCause (.fieldConstant value descriptor))

def field (f : Register.Field) : PoolM Bytes := do
  let name ← PoolM.utf8 f.id.name
  let descriptor ← PoolM.utf8 f.id.descriptor
  let head :=
    Bytes.ofUInt16 (f.access &&& fieldFlags).toUInt16 ++ Bytes.ofUInt16 name ++
      Bytes.ofUInt16 descriptor
  match f.constant with
  | none => return head ++ Bytes.ofUInt16 0
  | some value =>
    let label ← PoolM.utf8 "ConstantValue"
    let index ← constantIndex f.id.descriptor value
    return head ++ Bytes.ofUInt16 1 ++ Bytes.ofUInt16 label ++ Bytes.ofUInt32 2 ++
      Bytes.ofUInt16 index

def methodBody (catalog : Register.Catalog) (o : Options) (handOver : HandOver)
    (m : Register.Method) (code : Register.Code) : PoolM Body := do
  let body ← withinPool (.method m.id.name) (Register.compile catalog m code o)
  return (body.simplify o handOver).assignSlots o

def bodyWith (catalog : Register.Catalog) (o : Options) (handOver : HandOver)
    (m : Register.Method) :
    PoolM (Option Body) :=
  match m.code with
  | some code => some <$> methodBody catalog o handOver m code
  | none => pure none

def codeAttributes (catalog : Register.Catalog) (o : Options) (handOver : HandOver)
    (methods : List Register.Method) :
    PoolM (List Bytes) := do
  let bodies ← methods.filterMapM (bodyWith catalog o handOver)
  ExceptT.mk fun p =>
    let (result, _, p) := finish p bodies o handOver
    (result, p)

def method (m : Register.Method) (code : Option Bytes) : PoolM Bytes := do
  let name ← PoolM.utf8 m.id.name
  let descriptor ← PoolM.utf8 m.id.descriptor
  let head :=
    Bytes.ofUInt16 (m.access &&& methodFlags).toUInt16 ++ Bytes.ofUInt16 name ++
      Bytes.ofUInt16 descriptor
  match code with
  | none => return head ++ Bytes.ofUInt16 0
  | some content =>
    let label ← PoolM.utf8 codeName
    return head ++ Bytes.ofUInt16 1 ++ Bytes.ofUInt16 label ++
      Bytes.ofUInt32 content.length.toUInt32 ++ content

def pairUp : List Register.Method → List Bytes → List (Register.Method × Option Bytes)
  | [], _ => []
  | m :: ms, codes =>
    match m.code, codes with
    | some _, c :: cs => (m, some c) :: pairUp ms cs
    | _, _ => (m, none) :: pairUp ms codes

def afterPool (catalog : Register.Catalog) (o : Options) (handOver : HandOver)
    (c : Register.Class) : PoolM Bytes := do
  let this ← PoolM.classRef c.name
  let super ←
    match c.super with
    | some name => PoolM.classRef name
    | none => pure 0
  let interfaces ← c.interfaces.mapM PoolM.classRef
  let fields ← c.fields.mapM fun f => withinPool (.field f.id.name) (field f)
  let codes ← codeAttributes catalog o handOver c.methods
  let methods ← (pairUp c.methods codes).mapM fun (m, code) => method m code
  return Bytes.ofUInt16 (classAccess c.access) ++ Bytes.ofUInt16 this ++ Bytes.ofUInt16 super ++
    count interfaces ++ interfaces.flatMap Bytes.ofUInt16 ++
    count fields ++ fields.flatten ++
    count methods ++ methods.flatten ++
    Bytes.ofUInt16 0

def header : Bytes := [0xca, 0xfe, 0xba, 0xbe, 0, 0, 0, 49]

def writeWith (catalog : Register.Catalog) (o : Options) (c : Register.Class)
    (texts : TextForm := .modifiedUtf8) (handOver : HandOver := .asListed) : Except Fault Bytes :=
  let (result, pool) :=
    (afterPool catalog o handOver c).run (.empty (if o.splitPool then .split else .simple) texts)
  result.map fun rest => header ++ pool.encode ++ rest

/-- The class file. If it hits a limit of the format, it is tried again with everything that saves
space. -/
def write (catalog : Register.Catalog) (o : Options) (c : Register.Class)
    (texts : TextForm := .modifiedUtf8) (handOver : HandOver := .asListed) : Except Fault Bytes :=
  let result :=
    match writeWith catalog o c texts handOver with
    | .error f =>
      if f.isLimit && !o.isAll then writeWith catalog .all c texts handOver else .error f
    | .ok bytes => .ok bytes
  within (.class c.name) result

end ClassFile

end Restack
