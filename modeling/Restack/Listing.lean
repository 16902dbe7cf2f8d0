import Restack.Digest
import Restack.Frame
import Restack.Stack.Body

set_option autoImplicit false

namespace Restack

def Kinds.letters (k : Kinds) : String :=
  if k = .none then "-"
  else
    String.join ([(k.int, "I"), (k.float, "F"), (k.ref, "A"), (k.long, "J"), (k.double, "D")].map
      fun (held, letter) => if held then letter else "")

def Local.text (l : Local) : String := "v" ++ toString l.reg ++ " " ++ l.kinds.letters

def Entry.text : Entry → String
  | .utf8 bytes => "utf8 " ++ bytes.hex
  | .int v => "int " ++ toString v.toInt
  | .float bits => "float " ++ toString bits.toNat
  | .long v => "long " ++ toString v.toInt
  | .double bits => "double " ++ toString bits.toNat
  | .class i => "class " ++ toString i.toNat
  | .string i => "string " ++ toString i.toNat
  | .field a b => "field " ++ toString a.toNat ++ " " ++ toString b.toNat
  | .method a b => "method " ++ toString a.toNat ++ " " ++ toString b.toNat
  | .interfaceMethod a b => "imethod " ++ toString a.toNat ++ " " ++ toString b.toNat
  | .nameType a b => "nat " ++ toString a.toNat ++ " " ++ toString b.toNat

/-- What is known about the given registers; those that nothing is known about are left out. -/
def Frame.text (s : Frame) (registers : List Nat) : String :=
  " ".intercalate (registers.filterMap fun r =>
    let kinds := s.kindsOf r
    let array := s.arrayOf r
    if kinds = .none && array = .unknown && !s.isTainted r then none
    else some
      ("v" ++ toString r ++ "=" ++ kinds.letters ++
        (if array = .unknown then "" else "/" ++ array.text) ++
      (if s.isTainted r then "!" else "")))

def codeText : Option Bytes → String
  | some bytes => " =" ++ bytes.brief
  | none => ""

def Access.text (a : Access) : String :=
  (if a.isStore then "store " else "load ") ++ a.var.text ++ codeText a.code?

def Jump.text (j : Jump) : String :=
  let name :=
    match j.op with
    | none => "goto"
    | some op => "if " ++ Bytes.hex [op]
  name ++ " @" ++ toString j.target.toNat ++ " " ++ toString j.minLength ++ "/" ++
    toString j.maxLength ++
    codeText j.code

def Switch.text (s : Switch) : String :=
  let cases :=
    if s.cases.pairs.length > 64 then toString s.cases.pairs.length ++ " cases"
    else ",".intercalate
      (s.cases.pairs.map fun (key, target) => toString key.toInt ++ ":" ++ toString target.toNat)
  "switch " ++ (if s.isTable then "table" else "lookup") ++ " @" ++ toString s.default.toNat ++
    " " ++
    toString s.low.toInt ++ ".." ++ toString s.high.toInt ++ " " ++ toString s.unpaddedSize ++
    " [" ++ cases ++ "]" ++ codeText s.code

def Insn.text : Insn → String
  | .label none => "label"
  | .label (some p) => "label @" ++ toString p.toNat
  | .access a => a.text
  | .literal l =>
    "const " ++ l.kinds.letters ++ " " ++ toString l.value.toInt ++ codeText (some l.code)
  | .constant code => "oconst " ++ code.brief
  | .plain code => "other " ++ code.brief
  | .jump j => j.text
  | .switch s => s.text

namespace Body

def lineText (b : Body) (l : Line) : String :=
  let ways :=
    match b.entries[l.tag]? with
    | some n => " t" ++ toString n
    | none => ""
  l.insn.text ++ ways ++ (if b.starts.contains l.tag then " xs" else "") ++
    (if b.stops.contains l.tag then " xe" else "")

def listing (b : Body) : List String := b.lines.map b.lineText

end Body

end Restack
