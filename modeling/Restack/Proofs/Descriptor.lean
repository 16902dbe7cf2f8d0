import Mathlib.Data.List.TakeWhile
import Restack.Proofs.Stack.Operands

set_option autoImplicit false

namespace Restack

namespace TypeDesc

variable {t : TypeDesc} {cs rest : List Char}

theorem split_name {after : List Char} {c : Char}
    (found : cs.dropWhile (fun c => decide (c ≠ ';')) = c :: after) :
    cs = cs.takeWhile (fun c => decide (c ≠ ';')) ++ ';' :: after := by
  have closing := List.head?_dropWhile_not (fun c => decide (c ≠ ';')) cs
  rw [found] at closing
  have semicolon : c = ';' := by simpa using closing
  subst semicolon
  rw [← found, List.takeWhile_append_dropWhile]

theorem chars_of_read (done : read cs = some (t, rest)) : cs = t.chars ++ rest := by
  fun_induction read cs generalizing t rest with
  | case1 cs ih =>
    obtain ⟨⟨element, after⟩, inner, same⟩ := Option.map_eq_some_iff.1 done
    cases same
    rw [ih inner, chars, List.cons_append]
  | case2 | case4 | case14 => cases done
  | case3 =>
    rename_i cs name head after found nonempty
    cases done
    have split := split_name found
    rw [chars, String.toList_ofList, List.cons_append, List.cons_append, List.append_assoc]
    exact congrArg _ split
  | _ =>
    cases done
    rfl

theorem read_append (done : read cs = some (t, rest)) (more : List Char) :
    read (cs ++ more) = some (t, rest ++ more) := by
  fun_induction read cs generalizing t rest with
  | case1 cs ih =>
    obtain ⟨⟨element, after⟩, inner, same⟩ := Option.map_eq_some_iff.1 done
    cases same
    rw [List.cons_append, read, ih inner]
    rfl
  | case2 | case4 | case14 => cases done
  | case3 =>
    rename_i cs name head after found nonempty
    cases done
    have no_end : ∀ c ∈ cs.takeWhile (fun c => decide (c ≠ ';')), decide (c ≠ ';') = true :=
      fun c inside => List.mem_takeWhile_imp (p := fun c => decide (c ≠ ';')) inside
    have longer : cs ++ more = cs.takeWhile (fun c => decide (c ≠ ';')) ++ ';' ::
        (after ++ more) := by
      rw [← List.cons_append, ← List.append_assoc, ← split_name found]
    have taken : (cs ++ more).takeWhile (fun c => decide (c ≠ ';')) =
        cs.takeWhile (fun c => decide (c ≠ ';')) := by
      rw [longer, List.takeWhile_append_of_pos no_end, List.takeWhile_cons_of_neg (by simp),
        List.append_nil]
    have dropped : (cs ++ more).dropWhile (fun c => decide (c ≠ ';')) = ';' :: (after ++ more) := by
      rw [longer, List.dropWhile_append_of_pos no_end, List.dropWhile_cons_of_neg (by simp)]
    simp only [List.cons_append, read, taken, dropped]
    exact if_neg nonempty
  | _ =>
    cases done
    rfl

theorem readAll_of_read (done : read cs = some (t, rest)) :
    readAll cs = (t :: (readAll rest).1, (readAll rest).2) := by
  rw [readAll]
  split
  next t' rest' found =>
    cases found.symm.trans done
    rfl
  next none =>
    rw [none] at done
    cases done

theorem readAll_flatMap {ds : List String} {ts : List TypeDesc}
    (reads : List.Forall₂ (fun d t => read d.toList = some (t, [])) ds ts)
    (stops : read rest = none) :
    readAll (ds.flatMap String.toList ++ rest) = (ts, rest) := by
  induction reads with
  | nil =>
    rw [List.flatMap_nil, List.nil_append, readAll]
    split
    next found =>
      rw [stops] at found
      cases found
    next => rfl
  | @cons d t ds ts first _ ih =>
    rw [List.flatMap_cons, List.append_assoc, readAll_of_read (read_append first _),
      List.nil_append, ih]

variable {d : String} {t : TypeDesc}

theorem parse_eq_ok : parse d = .ok t ↔ read d.toList = some (t, []) := by
  unfold parse
  split
  next found => simp [found]
  next other =>
    refine ⟨fun done => by simp [fail] at done, fun found => absurd found (other t)⟩

section

variable (done : parse d = .ok t)
include done

theorem toList_of_parse : d.toList = t.chars := by
  simpa using chars_of_read (parse_eq_ok.1 done)

theorem parse_element (array : d.toList = '[' :: cs) :
    ∃ element, t = .array element ∧ parse (String.ofList cs) = .ok element := by
  have found := parse_eq_ok.1 done
  rw [array, read] at found
  obtain ⟨⟨element, rest⟩, inner, same⟩ := Option.map_eq_some_iff.1 found
  cases same
  exact ⟨element, rfl, parse_eq_ok.2 (by rw [String.toList_ofList]; exact inner)⟩

theorem eq_void_iff : t = .void ↔ d = "V" := by
  have printed := toList_of_parse done
  constructor
  · rintro rfl
    exact String.toList_inj.1 printed
  · rintro rfl
    cases t <;> first | rfl | simp [chars] at printed

theorem operands_of_parse (value : t ≠ .void) : t.operands = [(Kinds.ofDescriptor d).width] := by
  have printed := toList_of_parse done
  unfold Kinds.ofDescriptor
  rw [printed]
  cases t <;> first | exact absurd rfl value | rfl

theorem ofDescriptor_ne_none (value : t ≠ .void) : Kinds.ofDescriptor d ≠ .none := by
  have printed := toList_of_parse done
  unfold Kinds.ofDescriptor
  rw [printed]
  cases t <;> first | exact absurd rfl value | exact of_decide_eq_true rfl

theorem isWide_ofDescriptor_iff : (Kinds.ofDescriptor d).isWide = true ↔ d = "J" ∨ d = "D" := by
  have printed := toList_of_parse done
  constructor
  · intro wide
    unfold Kinds.ofDescriptor at wide
    rw [printed] at wide
    cases t with
    | long => exact .inl (String.toList_inj.1 printed)
    | double => exact .inr (String.toList_inj.1 printed)
    | array | object | int | bool | byte | char | short | float | void => cases wide
  · rintro (rfl | rfl) <;> rfl

end

end TypeDesc

namespace Register

def IsType (d : String) : Prop := ∃ t, TypeDesc.parse d = .ok t

def IsValue (d : String) : Prop := ∃ t, TypeDesc.parse d = .ok t ∧ t ≠ .void

theorem IsValue.isType {d : String} (value : IsValue d) : IsType d := by
  obtain ⟨t, done, _⟩ := value
  exact ⟨t, done⟩

/-- Parameters are values; there may be no result. -/
structure MethodRef.WellFormed (m : MethodRef) : Prop where
  params : ∀ d ∈ m.params, IsValue d
  result : IsType m.result

/-- All descriptors of a catalog can be read. -/
structure Catalog.WellFormed (c : Catalog) : Prop where
  types : ∀ d ∈ c.types, IsType d
  fields : ∀ f ∈ c.fields, IsValue f.descriptor
  methods : ∀ m ∈ c.methods, m.WellFormed

theorem MethodRef.toList_descriptor (m : MethodRef) :
    m.descriptor.toList = '(' :: (m.params.flatMap String.toList ++ ')' :: m.result.toList) := by
  simp [descriptor]

theorem MethodRef.parse_descriptor {m : MethodRef} {args : List TypeDesc} {result : TypeDesc}
    (params : List.Forall₂ (fun d t => TypeDesc.parse d = .ok t) m.params args)
    (returns : TypeDesc.parse m.result = .ok result) :
    MethodDesc.parse m.descriptor = .ok ⟨args, result⟩ := by
  have stops : TypeDesc.read (')' :: m.result.toList) = none := rfl
  have read_args :=
    TypeDesc.readAll_flatMap (params.imp fun d t done => TypeDesc.parse_eq_ok.1 done) stops
  have found : MethodDesc.read m.descriptor.toList = some ⟨args, result⟩ := by
    rw [m.toList_descriptor, MethodDesc.read, read_args]
    simp only [TypeDesc.parse_eq_ok.1 returns]
  rw [MethodDesc.parse, found]

end Register

end Restack
