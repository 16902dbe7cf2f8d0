import Restack.Fault

set_option autoImplicit false

namespace Restack

inductive TypeDesc where
  | array (element : TypeDesc)
  | object (name : String)
  | int
  | bool
  | byte
  | char
  | short
  | long
  | float
  | double
  | void
deriving DecidableEq, Repr, Inhabited

namespace TypeDesc

def chars : TypeDesc → List Char
  | .array t => '[' :: t.chars
  | .object name => 'L' :: name.toList ++ [';']
  | .int => ['I']
  | .bool => ['Z']
  | .byte => ['B']
  | .char => ['C']
  | .short => ['S']
  | .long => ['J']
  | .float => ['F']
  | .double => ['D']
  | .void => ['V']

def print (t : TypeDesc) : String := String.ofList t.chars

def isWide : TypeDesc → Bool
  | .long | .double => true
  | _ => false

def read : List Char → Option (TypeDesc × List Char)
  | '[' :: cs => (read cs).map fun (t, rest) => (.array t, rest)
  | 'L' :: cs =>
    let name := cs.takeWhile (· ≠ ';')
    match cs.dropWhile (· ≠ ';') with
    | _ :: rest => if name = [] then none else some (.object (String.ofList name), rest)
    | [] => none
  | 'Z' :: cs => some (.bool, cs)
  | 'B' :: cs => some (.byte, cs)
  | 'C' :: cs => some (.char, cs)
  | 'S' :: cs => some (.short, cs)
  | 'I' :: cs => some (.int, cs)
  | 'J' :: cs => some (.long, cs)
  | 'F' :: cs => some (.float, cs)
  | 'D' :: cs => some (.double, cs)
  | 'V' :: cs => some (.void, cs)
  | _ => none

theorem read_length {cs rest : List Char} {t : TypeDesc} (h : read cs = some (t, rest)) :
    rest.length < cs.length := by
  fun_induction read cs generalizing t rest with
  | case1 cs ih =>
    obtain ⟨⟨t', r⟩, hr, he⟩ := Option.map_eq_some_iff.1 h
    simp only [Prod.mk.injEq] at he
    have := ih hr
    simp [← he.2]
    omega
  | case2 | case4 => simp at h
  | case3 =>
    rename_i cs _ _ after found _
    have := (List.dropWhile_sublist (fun c => decide (c ≠ ';')) (l := cs)).length_le
    simp only [found, List.length_cons] at this
    simp at h
    simp [← h.2]
    omega
  | case14 => simp at h
  | _ => simp at h; simp [← h.2]

def readAll (cs : List Char) : List TypeDesc × List Char :=
  match h : read cs with
  | some (t, rest) =>
    have := read_length h
    let (ts, final) := readAll rest
    (t :: ts, final)
  | none => ([], cs)
termination_by cs.length

def parse (s : String) : Except Fault TypeDesc :=
  match read s.toList with
  | some (t, []) => .ok t
  | _ => fail (.typeDescriptor s)

end TypeDesc

structure MethodDesc where
  args : List TypeDesc
  result : TypeDesc
deriving DecidableEq, Repr, Inhabited

namespace MethodDesc

def chars (m : MethodDesc) : List Char :=
  '(' :: m.args.flatMap TypeDesc.chars ++ ')' :: m.result.chars

def print (m : MethodDesc) : String := String.ofList m.chars

def read (cs : List Char) : Option MethodDesc :=
  match cs with
  | '(' :: inner =>
    match TypeDesc.readAll inner with
    | (args, ')' :: after) =>
      match TypeDesc.read after with
      | some (result, []) => some ⟨args, result⟩
      | _ => none
    | _ => none
  | _ => none

def parse (s : String) : Except Fault MethodDesc :=
  match read s.toList with
  | some m => .ok m
  | none => fail (.methodDescriptor s)

end MethodDesc

/-- The class name inside `L…;`; every other text stands for itself. -/
def classNameOf (descriptor : String) : String :=
  match descriptor.toList with
  | 'L' :: cs => if cs.getLast? = some ';' then String.ofList cs.dropLast else descriptor
  | _ => descriptor

end Restack
