import Restack.Proofs.Pool.Additions

set_option autoImplicit false

namespace Restack

variable {allowed : Pool → Entry → Prop}

/-- The written form has room for the length of a text. -/
def Entry.Writable : Entry → Prop
  | .utf8 bytes => bytes.length ≤ 65535
  | _ => True

namespace PoolM

inductive Requests : {α : Type} → PoolM α → Prop where
  | fault {α : Type} (f : Fault) : Requests (throw f : PoolM α)
  | one (e : Entry) : e.Writable → Requests (request e)
  | text (s : String) : Requests (utf8 s)
  | bind {α β : Type} {m : PoolM α} {f : α → PoolM β} :
      Requests m → (∀ a, Requests (f a)) → Requests (m >>= f)

theorem requests_classRef (name : String) : Requests (classRef name) :=
  (Requests.text name).bind fun _ => .one _ trivial

theorem requests_stringRef (s : String) : Requests (stringRef s) :=
  (Requests.text s).bind fun _ => .one _ trivial

theorem requests_nameType (name descriptor : String) : Requests (nameType name descriptor) :=
  (Requests.text name).bind fun _ => (Requests.text descriptor).bind fun _ => .one _ trivial

def member (make : UInt16 → UInt16 → Entry) (owner name descriptor : String) : PoolM UInt16 := do
  let owner ← classRef owner
  let nameType ← nameType name descriptor
  request (make owner nameType)

theorem requests_member (make : UInt16 → UInt16 → Entry) (writable : ∀ a b, (make a b).Writable)
    (owner name descriptor : String) : Requests (member make owner name descriptor) :=
  (requests_classRef owner).bind fun _ => (requests_nameType name descriptor).bind fun _ =>
    .one _ (writable _ _)

theorem member_eq_ok {p later : Pool} (make : UInt16 → UInt16 → Entry)
    {owner name descriptor : String} {index : UInt16}
    (done : (member make owner name descriptor).run p = (.ok index, later)) :
    later.HasMember make index owner name descriptor := by
  obtain ⟨o, first, asked_owner, rest⟩ := ExceptT.run_bind_eq_ok.1 done
  obtain ⟨nt, second, asked_member, asked⟩ := ExceptT.run_bind_eq_ok.1 rest
  have of_class := (classRef_eq_ok asked_owner).2
  obtain ⟨grows, of_member⟩ := nameType_eq_ok asked_member
  obtain ⟨grows', at_index⟩ := Pool.request_eq_ok asked
  exact ⟨o, nt, at_index, of_class.grow (grows.trans _ _ _ grows'), of_member.grow grows'⟩

namespace Requests

variable {α : Type} {m : PoolM α}

theorem adds (admits : ∀ p e, e.Writable → p.find? e = none → allowed p e) (requests : Requests m)
    (p : Pool) :
    Pool.Adds allowed p (m.run p).2 := by
  induction requests generalizing p with
  | fault f => exact .refl p
  | one e writable => exact .request p e (admits p e writable)
  | text s =>
    rw [run_utf8]
    split
    case isTrue long => exact .refl p
    case isFalse short => exact .request p _ (admits p _ (Nat.le_of_not_lt short))
  | bind _ _ first second =>
    exact ExceptT.reaches_bind (Pool.Adds allowed) (fun _ _ _ => .trans) first second p

theorem later (requests : Requests m) (p : Pool) : Pool.Later p (m.run p).2 :=
  requests.adds (fun _ _ _ absent => absent) p

/-- Requests that succeeded once do so in every later pool, with the same answer, and leave it as it
is. -/
theorem again (requests : Requests m) {p q r : Pool} {a : α} (done : m.run p = (.ok a, q))
    (later : Pool.Later q r) :
    m.run r = (.ok a, r) := by
  induction requests generalizing p q r with
  | fault f => cases done
  | one e writable => exact Pool.request_of_find? (later.find? (Pool.find?_of_request done))
  | text s =>
    rw [run_utf8, later.texts_eq, (utf8_eq_ok done).1.texts]
    rw [run_utf8] at done
    split at done
    case isTrue long => cases done
    case isFalse short =>
      rw [if_neg short]
      exact Pool.request_of_find? (later.find? (Pool.find?_of_request done))
  | @bind α β m f _ requests first second =>
    obtain ⟨b, middle, run_first, run_second⟩ := ExceptT.run_bind_eq_ok.1 done
    have grown : Pool.Later middle q := by
      have added := (requests b).later middle
      rwa [run_second] at added
    exact ExceptT.run_bind_eq_ok.2
      ⟨b, r, first run_first (grown.trans later), second b run_second later⟩

end Requests

end PoolM

namespace Pool

inductive Call where
  | utf8 (text : String)
  | classRef (name : String)
  | stringRef (text : String)
  | nameType (name descriptor : String)
  | field (f : Register.FieldRef)
  | method (m : Register.MethodRef)
  | interfaceMethod (m : Register.MethodRef)
  | int (value : Int32)
  | float (bits : UInt32)
  | long (value : Int64)
  | double (bits : UInt64)
  | offer (e : Entry)
  | insert (e : Entry) (low : Bool)
deriving DecidableEq, Repr

namespace Call

def indexOf (m : PoolM UInt16) (p : Pool) : Option UInt16 × Pool :=
  ((m.run p).1.toOption, (m.run p).2)

/-- The index that answers the call, if there is one, and the pool after it. -/
def ask : Call → Pool → Option UInt16 × Pool
  | .utf8 text => indexOf (PoolM.utf8 text)
  | .classRef name => indexOf (PoolM.classRef name)
  | .stringRef text => indexOf (PoolM.stringRef text)
  | .nameType name descriptor => indexOf (PoolM.nameType name descriptor)
  | .field f => indexOf (PoolM.fieldRef f)
  | .method m => indexOf (PoolM.methodRef m)
  | .interfaceMethod m => indexOf (PoolM.interfaceMethodRef m)
  | .int value => indexOf (PoolM.request (.int value))
  | .float bits => indexOf (PoolM.request (.float bits))
  | .long value => indexOf (PoolM.request (.long value))
  | .double bits => indexOf (PoolM.request (.double bits))
  | .offer e => fun p => p.offer e
  | .insert e low => indexOf (PoolM.insert e low)

theorem ask_cases (call : Call) :
    (∃ e, call = .offer e) ∨ (∃ e low, call = .insert e low) ∨ ∃ m, PoolM.Requests m ∧
    call.ask = indexOf m := by
  cases call with
  | utf8 text => exact .inr (.inr ⟨_, PoolM.Requests.text text, rfl⟩)
  | classRef name => exact .inr (.inr ⟨_, PoolM.requests_classRef name, rfl⟩)
  | stringRef text => exact .inr (.inr ⟨_, PoolM.requests_stringRef text, rfl⟩)
  | nameType name descriptor => exact .inr (.inr ⟨_, PoolM.requests_nameType name descriptor, rfl⟩)
  | field f => exact .inr (.inr ⟨_, PoolM.requests_member .field (fun _ _ => trivial) _ _ _, rfl⟩)
  | method m => exact .inr (.inr ⟨_, PoolM.requests_member .method (fun _ _ => trivial) _ _ _, rfl⟩)
  | interfaceMethod m =>
    exact .inr (.inr ⟨_, PoolM.requests_member .interfaceMethod (fun _ _ => trivial) _ _ _, rfl⟩)
  | int value => exact .inr (.inr ⟨_, .one (.int value) trivial, rfl⟩)
  | float bits => exact .inr (.inr ⟨_, .one (.float bits) trivial, rfl⟩)
  | long value => exact .inr (.inr ⟨_, .one (.long value) trivial, rfl⟩)
  | double bits => exact .inr (.inr ⟨_, .one (.double bits) trivial, rfl⟩)
  | offer e => exact .inl ⟨e, rfl⟩
  | insert e low => exact .inr (.inl ⟨e, low, rfl⟩)

def Allowed (allowed : Pool → Entry → Prop) (p : Pool) : Call → Prop
  | .offer e => p.find? e = none → allowed p e
  | .insert e _ => allowed p e
  | _ => True

theorem ask_adds (admits : ∀ p e, e.Writable → p.find? e = none → allowed p e) (call : Call)
    (p : Pool) (fine : call.Allowed allowed p) : Adds allowed p (call.ask p).2 := by
  rcases call.ask_cases with ⟨e, rfl⟩ | ⟨e, low, rfl⟩ | ⟨m, requests, asks⟩
  · exact .offer p e fine
  · exact .insert p e low fine
  · rw [asks]
    exact requests.adds admits p

end Call

def after (p : Pool) : List Call → Pool
  | [] => p
  | call :: calls => after (call.ask p).2 calls

def AllAllowed (allowed : Pool → Entry → Prop) : Pool → List Call → Prop
  | _, [] => True
  | p, call :: calls => call.Allowed allowed p ∧ AllAllowed allowed (call.ask p).2 calls

theorem after_adds (admits : ∀ p e, e.Writable → p.find? e = none → allowed p e) (p : Pool)
    (calls : List Call) (fine : AllAllowed allowed p calls) : Adds allowed p (p.after calls) := by
  induction calls generalizing p with
  | nil => exact .refl p
  | cons call calls ih => exact (call.ask_adds admits p fine.1).trans (ih _ fine.2)

end Pool

end Restack
