import Restack.Proofs.Bytes.Readers
import Restack.Proofs.Pool.Decoding
import Restack.ClassFile

set_option autoImplicit false

namespace Restack

namespace ClassFile

structure AttributeInfo where
  name : UInt16
  content : Bytes

structure MemberInfo where
  access : UInt16
  name : UInt16
  descriptor : UInt16
  attributes : List AttributeInfo

/-- A class as its file tells it: all names are indices of the pool. -/
structure ClassInfo where
  minor : Nat
  major : Nat
  entries : List (UInt16 × Entry)
  access : UInt16
  this : UInt16
  super : UInt16
  interfaces : List UInt16
  fields : List MemberInfo
  methods : List MemberInfo
  attributes : List AttributeInfo

def readIndex (bytes : Bytes) : Option (UInt16 × Bytes) := do
  let (index, bytes) ← Bytes.word 2 bytes
  return (index.toUInt16, bytes)

def AttributeInfo.read (bytes : Bytes) : Option (AttributeInfo × Bytes) := do
  let (name, bytes) ← readIndex bytes
  let (size, bytes) ← Bytes.word 4 bytes
  let (content, bytes) ← Bytes.cut size bytes
  return (⟨name, content⟩, bytes)

def MemberInfo.read (bytes : Bytes) : Option (MemberInfo × Bytes) := do
  let (access, bytes) ← readIndex bytes
  let (name, bytes) ← readIndex bytes
  let (descriptor, bytes) ← readIndex bytes
  let (attributes, bytes) ← Bytes.counted AttributeInfo.read bytes
  return (⟨access, name, descriptor, attributes⟩, bytes)

def readMagic (bytes : Bytes) : Option (Unit × Bytes) := do
  let (magic, bytes) ← Bytes.word 4 bytes
  if magic = 0xcafebabe then some ((), bytes) else none

/-- The entries of a pool, the last of which has to end where the pool does. -/
def readPool (bytes : Bytes) : Option (List (UInt16 × Entry) × Bytes) := do
  let pool ← Pool.read bytes
  if pool.stop = pool.count then some (pool.entries, pool.rest) else none

def ClassInfo.readBody (minor major : Nat) (entries : List (UInt16 × Entry)) (bytes : Bytes) :
    Option (ClassInfo × Bytes) := do
  let (access, bytes) ← readIndex bytes
  let (this, bytes) ← readIndex bytes
  let (super, bytes) ← readIndex bytes
  let (interfaces, bytes) ← Bytes.counted readIndex bytes
  let (fields, bytes) ← Bytes.counted MemberInfo.read bytes
  let (methods, bytes) ← Bytes.counted MemberInfo.read bytes
  let (attributes, bytes) ← Bytes.counted AttributeInfo.read bytes
  return (⟨minor, major, entries, access, this, super, interfaces, fields, methods, attributes⟩,
    bytes)

def ClassInfo.read (bytes : Bytes) : Option (ClassInfo × Bytes) := do
  let (_, bytes) ← readMagic bytes
  let (minor, bytes) ← Bytes.word 2 bytes
  let (major, bytes) ← Bytes.word 2 bytes
  let (entries, bytes) ← readPool bytes
  readBody minor major entries bytes

theorem holds_readIndex (index : UInt16) : Bytes.Holds readIndex (Bytes.ofUInt16 index) index := by
  intro rest
  simp [readIndex, Bytes.word_ofUInt16]

theorem AttributeInfo.holds_read (name : UInt16) {content : Bytes}
    (short : content.length < 2 ^ 32) :
    Bytes.Holds AttributeInfo.read
      (Bytes.ofUInt16 name ++ Bytes.ofUInt32 content.length.toUInt32 ++ content)
        ⟨name, content⟩ := by
  intro rest
  have size : content.length.toUInt32.toNat = content.length := by
    rw [Nat.toUInt32_eq, UInt32.toNat_ofNat', Nat.mod_eq_of_lt short]
  simp only [AttributeInfo.read, List.append_assoc, holds_readIndex name _, Bytes.word_ofUInt32,
    size, Bytes.cut_append, Option.bind_eq_bind, Option.bind_some]
  rfl

theorem AttributeInfo.length_of_read {bytes rest : Bytes} {a : AttributeInfo}
    (found : AttributeInfo.read bytes = some (a, rest)) : a.content.length < 2 ^ 32 := by
  obtain ⟨⟨_, _⟩, _, found⟩ := Option.bind_eq_some_iff.1 found
  obtain ⟨⟨size, _⟩, sized, found⟩ := Option.bind_eq_some_iff.1 found
  obtain ⟨⟨content, _⟩, part, same⟩ := Option.bind_eq_some_iff.1 found
  cases same
  have bound := Bytes.word_lt sized
  rw [(Bytes.cut_eq_some part).1]
  omega

theorem holds_noAttributes :
    Bytes.Holds (Bytes.counted AttributeInfo.read) (Bytes.ofUInt16 0) [] := by
  intro rest
  rw [Bytes.counted, Bytes.word_ofUInt16]
  rfl

section Member

variable (access name descriptor : UInt16)

def memberHead : Bytes := Bytes.ofUInt16 access ++ Bytes.ofUInt16 name ++ Bytes.ofUInt16 descriptor

theorem MemberInfo.holds_bare :
    Bytes.Holds MemberInfo.read (memberHead access name descriptor ++ Bytes.ofUInt16 0)
      ⟨access, name, descriptor, []⟩ := by
  intro rest
  simp only [MemberInfo.read, memberHead, List.append_assoc, holds_readIndex _ _,
    holds_noAttributes _, Option.bind_eq_bind, Option.bind_some]
  rfl

theorem MemberInfo.holds_single (label : UInt16) {content : Bytes}
    (short : content.length < 2 ^ 32) :
    Bytes.Holds MemberInfo.read
      (memberHead access name descriptor ++ Bytes.ofUInt16 1 ++ Bytes.ofUInt16 label ++
        Bytes.ofUInt32 content.length.toUInt32 ++ content)
      ⟨access, name, descriptor, [⟨label, content⟩]⟩ := by
  intro rest
  have one := Bytes.holds_counted (.cons (AttributeInfo.holds_read label short) .nil) (by simp) rest
  simp only [List.flatten_cons, List.flatten_nil, List.append_nil, List.append_assoc] at one
  simp only [MemberInfo.read, memberHead, List.append_assoc, holds_readIndex _ _,
    Option.bind_eq_bind, Option.bind_some]
  rw [show Bytes.ofUInt16 1 =
    Bytes.ofUInt16 [AttributeInfo.mk label content].length.toUInt16 from rfl, one]
  rfl

end Member

theorem MemberInfo.length_of_read {bytes rest : Bytes} {m : MemberInfo}
    (found : MemberInfo.read bytes = some (m, rest)) :
    ∀ a ∈ m.attributes, a.content.length < 2 ^ 32 := by
  iterate 3 obtain ⟨⟨_, _⟩, _, found⟩ := Option.bind_eq_some_iff.1 found
  obtain ⟨⟨attributes, _⟩, listed, same⟩ := Option.bind_eq_some_iff.1 found
  cases same
  obtain ⟨⟨_, _⟩, _, listed⟩ := Option.bind_eq_some_iff.1 listed
  exact Bytes.forall_of_several (fun _ _ _ => AttributeInfo.length_of_read) listed

theorem ClassInfo.length_of_read {bytes rest : Bytes} {info : ClassInfo}
    (found : ClassInfo.read bytes = some (info, rest)) :
    ∀ m ∈ info.methods, ∀ a ∈ m.attributes, a.content.length < 2 ^ 32 := by
  -- Nine parts stand before the methods.
  iterate 9 obtain ⟨⟨_, _⟩, _, found⟩ := Option.bind_eq_some_iff.1 found
  obtain ⟨⟨methods, _⟩, listed, found⟩ := Option.bind_eq_some_iff.1 found
  obtain ⟨⟨_, _⟩, _, same⟩ := Option.bind_eq_some_iff.1 found
  cases same
  obtain ⟨⟨_, _⟩, _, listed⟩ := Option.bind_eq_some_iff.1 listed
  exact Bytes.forall_of_several (fun _ _ _ => MemberInfo.length_of_read) listed

/-- What stands at an index of a pool, and the form of its texts. -/
structure Lookup where
  texts : TextForm
  entry? : UInt16 → Option Entry

namespace Lookup

def text? (look : Lookup) (index : UInt16) : Option String :=
  match look.entry? index with
  | some (.utf8 bytes) => look.texts.decode bytes
  | _ => none

def className? (look : Lookup) (index : UInt16) : Option String :=
  match look.entry? index with
  | some (.class name) => look.text? name
  | _ => none

/-- The value of an entry, if it is of the kind that a field of the given type asks for. -/
def constantOf? (look : Lookup) (descriptor : String) (e : Entry) : Option FieldConstant :=
  match descriptor, e with
  | "Z", .int v | "B", .int v | "S", .int v | "C", .int v | "I", .int v => some (.int v)
  | "F", .float bits => some (.int bits.toInt32)
  | "J", .long v => some (.long v)
  | "D", .double bits => some (.long bits.toInt64)
  | "Ljava/lang/String;", .string text => (look.text? text).map .string
  | "Ljava/lang/Class;", .class name => (look.text? name).map .type
  | _, _ => none

def constant? (look : Lookup) (descriptor : String) (index : UInt16) : Option FieldConstant :=
  (look.entry? index).bind (look.constantOf? descriptor)

structure Extends (look more : Lookup) : Prop where
  texts : more.texts = look.texts
  entries : ∀ index e, look.entry? index = some e → more.entry? index = some e

section Extension

variable {look more : Lookup} (extension : look.Extends more) {index : UInt16}
include extension

theorem text?_extend {text : String} (found : look.text? index = some text) :
    more.text? index = some text := by
  unfold text? at found ⊢
  split at found
  next bytes there => rwa [extension.entries _ _ there, extension.texts]
  next => cases found

theorem className?_extend {name : String} (found : look.className? index = some name) :
    more.className? index = some name := by
  unfold className? at found ⊢
  split at found
  next text there =>
    rw [extension.entries _ _ there]
    exact text?_extend extension found
  next => cases found

theorem constant?_extend {descriptor : String} {value : FieldConstant}
    (found : look.constant? descriptor index = some value) :
    more.constant? descriptor index = some value := by
  obtain ⟨e, there, holds⟩ := Option.bind_eq_some_iff.1 found
  refine Option.bind_eq_some_iff.2 ⟨e, extension.entries _ _ there, ?_⟩
  have texts {i : UInt16} {make : String → FieldConstant}
      (known : (look.text? i).map make = some value) :
      (more.text? i).map make = some value := by
    obtain ⟨text, written, rfl⟩ := Option.map_eq_some_iff.1 known
    rw [text?_extend extension written, Option.map_some]
  unfold constantOf? at holds ⊢
  split at holds
  all_goals first | exact holds | exact texts holds

end Extension

end Lookup

end ClassFile

namespace Pool

def look (p : Pool) : ClassFile.Lookup := ⟨p.texts, p.entry?⟩

theorem Adds.look {allowed : Pool → Entry → Prop} {p q : Pool} (grown : Adds allowed p q) :
    p.look.Extends q.look :=
  ⟨grown.texts_eq, grown.grows.entries⟩

end Pool

end Restack
