import Restack.Pool.Basic
import Restack.Register.Catalog

set_option autoImplicit false

namespace Restack

/-- A computation that works on a pool and may fail, leaving the pool as it is at that point. -/
abbrev PoolM := ExceptT Fault (StateM Pool)

namespace PoolM

def request (e : Entry) : PoolM UInt16 := ExceptT.mk fun p => p.request e

def insert (e : Entry) (low : Bool) : PoolM UInt16 := ExceptT.mk fun p => p.insert e low

def offer (e : Entry) : PoolM (Option UInt16) := ExceptT.mk fun p =>
  let (index, p) := p.offer e
  (.ok index, p)

def utf8 (s : String) : PoolM UInt16 := do
  let bytes := (← get).texts.encode s
  if bytes.length > 65535 then throw (.ofCause (.textTooLong bytes.length))
  request (.utf8 bytes)

/-- `name` is a class name or an array descriptor. -/
def classRef (name : String) : PoolM UInt16 := do
  request (.class (← utf8 name))

def stringRef (s : String) : PoolM UInt16 := do
  request (.string (← utf8 s))

def nameType (name descriptor : String) : PoolM UInt16 := do
  let n ← utf8 name
  let d ← utf8 descriptor
  request (.nameType n d)

def fieldRef (f : Register.FieldRef) : PoolM UInt16 := do
  let owner ← classRef f.owner
  let member ← nameType f.name f.descriptor
  request (.field owner member)

def methodRef (m : Register.MethodRef) : PoolM UInt16 := do
  let owner ← classRef m.owner
  let member ← nameType m.name m.descriptor
  request (.method owner member)

def interfaceMethodRef (m : Register.MethodRef) : PoolM UInt16 := do
  let owner ← classRef m.owner
  let member ← nameType m.name m.descriptor
  request (.interfaceMethod owner member)

end PoolM

end Restack
