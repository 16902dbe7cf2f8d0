import Restack.Proofs.Descriptor

set_option autoImplicit false

namespace Restack

namespace TypeDesc

/-- The class name, if there is one, is not empty and has no semicolon. -/
def Named : TypeDesc → Prop
  | .array element => element.Named
  | .object name => name ≠ "" ∧ ';' ∉ name.toList
  | _ => True

instance Named.decidable : (t : TypeDesc) → Decidable t.Named
  | .array element => Named.decidable element
  | .object name => inferInstanceAs (Decidable (name ≠ "" ∧ ';' ∉ name.toList))
  | .int | .bool | .byte | .char | .short | .long | .float | .double | .void => .isTrue trivial

variable {t : TypeDesc} {cs rest : List Char} {s : String}

theorem toList_print (t : TypeDesc) : t.print.toList = t.chars := String.toList_ofList

theorem eq_print_iff : s = t.print ↔ s.toList = t.chars := by
  rw [← String.toList_inj, toList_print]

theorem named_of_read (done : read cs = some (t, rest)) : t.Named := by
  fun_induction read cs generalizing t rest with
  | case1 cs ih =>
    obtain ⟨⟨element, after⟩, inner, same⟩ := Option.map_eq_some_iff.1 done
    cases same
    exact (ih inner : element.Named)
  | case2 | case4 | case14 => cases done
  | case3 =>
    rename_i cs name head after found nonempty
    cases done
    refine ⟨fun empty => nonempty (String.ofList_eq_empty_iff.1 empty), fun inside => ?_⟩
    rw [String.toList_ofList] at inside
    exact absurd
      rfl (of_decide_eq_true (List.mem_takeWhile_imp (p := fun c => decide (c ≠ ';')) inside))
  | _ =>
    cases done
    trivial

theorem read_chars (named : t.Named) (rest : List Char) :
    read (t.chars ++ rest) = some (t, rest) := by
  induction t with
  | array element ih =>
    rw [chars, List.cons_append, read, ih named]
    rfl
  | object name =>
    obtain ⟨nonempty, closed⟩ := named
    have inside : ∀ c ∈ name.toList, decide (c ≠ ';') = true :=
      fun c member => decide_eq_true fun same => closed (same ▸ member)
    have taken : (name.toList ++ ';' :: rest).takeWhile (fun c => decide (c ≠ ';')) =
        name.toList := by
      rw [List.takeWhile_append_of_pos inside, List.takeWhile_cons_of_neg (by simp),
        List.append_nil]
    have dropped : (name.toList ++ ';' :: rest).dropWhile (fun c => decide (c ≠ ';')) =
        ';' :: rest := by
      rw [List.dropWhile_append_of_pos inside, List.dropWhile_cons_of_neg (by simp)]
    have some_name : name.toList ≠ [] := fun empty => nonempty (String.toList_eq_nil_iff.1 empty)
    rw [chars, List.append_assoc, List.singleton_append, List.cons_append]
    simp only [read, taken, dropped, if_neg some_name, String.ofList_toList]
  | int | bool | byte | char | short | long | float | double | void => rfl

theorem parse_eq_ok_iff : parse s = .ok t ↔ t.Named ∧ s = t.print := by
  rw [parse_eq_ok, eq_print_iff]
  constructor
  · intro found
    exact ⟨named_of_read found, by simpa using chars_of_read found⟩
  · rintro ⟨named, printed⟩
    simpa [printed] using read_chars named []

theorem parse_refused (other : ¬ ∃ t : TypeDesc, t.Named ∧ s = t.print) :
    parse s = fail (.typeDescriptor s) := by
  cases result : parse s with
  | ok t => exact absurd ⟨t, parse_eq_ok_iff.1 result⟩ other
  | error fault =>
    unfold parse at result
    split at result
    · cases result
    · exact result.symm

theorem readAll_chars {ts : List TypeDesc} (named : ∀ t ∈ ts, t.Named) (stops : read rest = none) :
    readAll (ts.flatMap chars ++ rest) = (ts, rest) := by
  have reads : List.Forall₂ (fun d t => read d.toList = some (t, [])) (ts.map print) ts := by
    rw [List.forall₂_map_left_iff, List.forall₂_same]
    intro t member
    simpa [toList_print] using read_chars (named t member) []
  have texts : (ts.map print).flatMap String.toList = ts.flatMap chars := by
    rw [List.flatMap_map]
    simp only [toList_print]
  rw [← texts]
  exact readAll_flatMap reads stops

theorem chars_of_readAll (cs : List Char) :
    cs = (readAll cs).1.flatMap chars ++ (readAll cs).2 ∧ ∀ t ∈ (readAll cs).1, t.Named := by
  induction cs using readAll.induct with
  | case1 cs t rest found _ _ _ _ ih =>
    rw [readAll_of_read found]
    refine ⟨?_, List.forall_mem_cons.2 ⟨named_of_read found, ih.2⟩⟩
    rw [List.flatMap_cons, List.append_assoc, ← ih.1]
    exact chars_of_read found
  | case2 cs stops =>
    have nothing : readAll ([].flatMap chars ++ cs) = ([], cs) := readAll_chars (by simp) stops
    rw [List.flatMap_nil, List.nil_append] at nothing
    simp [nothing]

end TypeDesc

namespace MethodDesc

/-- The class names of all parameters and of the result can be told apart from what follows. -/
def Named (m : MethodDesc) : Prop := (∀ t ∈ m.args, t.Named) ∧ m.result.Named

instance (m : MethodDesc) : Decidable m.Named := inferInstanceAs (Decidable (_ ∧ _))

variable {m : MethodDesc} {s : String}

theorem read_chars (named : m.Named) : read m.chars = some m := by
  have stops : TypeDesc.read (')' :: m.result.chars) = none := rfl
  have result := TypeDesc.read_chars named.2 []
  rw [List.append_nil] at result
  rw [chars, List.cons_append, read, TypeDesc.readAll_chars named.1 stops]
  simp only [result]

theorem chars_of_read {cs : List Char} (done : read cs = some m) : cs = m.chars ∧ m.Named := by
  unfold read at done
  split at done
  next inner =>
    split at done
    next args after split =>
      split at done
      next result found =>
        cases done
        obtain ⟨text, named⟩ := TypeDesc.chars_of_readAll inner
        rw [split] at text named
        have last := TypeDesc.chars_of_read found
        rw [List.append_nil] at last
        exact ⟨by rw [text, last]; rfl, named, TypeDesc.named_of_read found⟩
      next => cases done
    next => cases done
  next => cases done

theorem parse_eq_ok_iff : parse s = .ok m ↔ m.Named ∧ s = m.print := by
  have same : s = m.print ↔ s.toList = m.chars := by
    rw [← String.toList_inj, print, String.toList_ofList]
  rw [same, parse]
  constructor
  · intro done
    split at done
    next found =>
      cases done
      exact (chars_of_read found).symm
    next => cases done
  · rintro ⟨named, printed⟩
    rw [printed, read_chars named]

theorem parse_refused (other : ¬ ∃ m : MethodDesc, m.Named ∧ s = m.print) :
    parse s = fail (.methodDescriptor s) := by
  cases result : parse s with
  | ok m => exact absurd ⟨m, parse_eq_ok_iff.1 result⟩ other
  | error fault =>
    unfold parse at result
    split at result
    · cases result
    · exact result.symm

end MethodDesc

namespace Register

theorem MethodRef.parse_eq_ok_iff {owner name s : String} {r : MethodRef} :
    MethodRef.parse owner name s = .ok r ↔
    ∃ m : MethodDesc, m.Named ∧ s = m.print ∧
    r = ⟨owner, name, m.args.map TypeDesc.print, m.result.print⟩ := by
  simp only [parse, Except.bind_eq_ok, MethodDesc.parse_eq_ok_iff, and_assoc]
  refine exists_congr fun m => and_congr_right fun _ => and_congr_right fun _ => ?_
  exact ⟨fun same => (Except.ok.inj same).symm, fun same => congrArg Except.ok same.symm⟩

theorem MethodRef.descriptor_printed (owner name : String) (m : MethodDesc) :
    MethodRef.descriptor ⟨owner, name, m.args.map TypeDesc.print, m.result.print⟩ = m.print := by
  have texts : (m.args.map TypeDesc.print).flatMap String.toList =
      m.args.flatMap TypeDesc.chars := by
    rw [List.flatMap_map]
    simp only [TypeDesc.toList_print]
  rw [← String.toList_inj, toList_descriptor, texts, TypeDesc.toList_print, MethodDesc.print,
    String.toList_ofList]
  rfl

/-- Exactly the printed forms of descriptors whose class names are neither empty nor hold a
semicolon are read, each as what was printed. The descriptor of a method reference is the text that
it was read from. -/
theorem descriptors_inverse :
    (∀ (s : String) (t : TypeDesc), TypeDesc.parse s = .ok t ↔ t.Named ∧ s = t.print) ∧
    (∀ s : String, (¬ ∃ t : TypeDesc, t.Named ∧ s = t.print) →
      TypeDesc.parse s = fail (.typeDescriptor s)) ∧
    (∀ (s : String) (m : MethodDesc), MethodDesc.parse s = .ok m ↔ m.Named ∧ s = m.print) ∧
    (∀ s : String, (¬ ∃ m : MethodDesc, m.Named ∧ s = m.print) →
      MethodDesc.parse s = fail (.methodDescriptor s)) ∧
    ∀ owner name s : String,
      (∀ r, MethodRef.parse owner name s = .ok r → r.owner = owner ∧ r.name = name ∧
        r.descriptor = s) ∧
      ((∃ r, MethodRef.parse owner name s = .ok r) ↔ ∃ m : MethodDesc, m.Named ∧ s = m.print) := by
  refine ⟨fun s t => TypeDesc.parse_eq_ok_iff, fun s => TypeDesc.parse_refused,
    fun s m => MethodDesc.parse_eq_ok_iff,
    fun s => MethodDesc.parse_refused, fun owner name s => ⟨fun r done => ?_, ?_⟩⟩
  · obtain ⟨m, _, printed, rfl⟩ := MethodRef.parse_eq_ok_iff.1 done
    exact ⟨rfl, rfl, by rw [MethodRef.descriptor_printed, printed]⟩
  · constructor
    · rintro ⟨r, done⟩
      obtain ⟨m, named, printed, _⟩ := MethodRef.parse_eq_ok_iff.1 done
      exact ⟨m, named, printed⟩
    · rintro ⟨m, named, printed⟩
      exact ⟨_, MethodRef.parse_eq_ok_iff.2 ⟨m, named, printed, rfl⟩⟩

/-- Brackets and parentheses inside class names are read as part of them, and an empty name is
refused. -/
theorem bracketedNames_inverse : TypeDesc.parse "[[L)[(;" = .ok (.array (.array (.object ")[("))) ∧
    MethodDesc.parse "(L(;[La);J)[V" =
      .ok ⟨[.object "(", .array (.object "a)"), .long], .array .void⟩ ∧
    (∃ r, MethodRef.parse "A" "f" "(L(;[La);J)[V" = .ok r ∧ r.descriptor = "(L(;[La);J)[V") ∧
    TypeDesc.parse "L;" = fail (.typeDescriptor "L;") := by
  obtain ⟨types, refused, methods, -, refs⟩ := descriptors_inverse
  have method : MethodDesc.Named ⟨[.object "(", .array (.object "a)"), .long], .array .void⟩ := by
    decide
  obtain ⟨r, done⟩ := (refs "A" "f" "(L(;[La);J)[V").2.2 ⟨_, method, rfl⟩
  refine ⟨(types _ _).2 ⟨by decide, rfl⟩, (methods _ _).2 ⟨method, rfl⟩,
    ⟨r, done, ((refs _ _ _).1 r done).2.2⟩, ?_⟩
  refine refused "L;" ?_
  rintro ⟨t, named, printed⟩
  have text := TypeDesc.eq_print_iff.1 printed
  cases t with
  | object name =>
    have empty : name = "" := by simpa [TypeDesc.chars] using text
    exact named.1 empty
  | array | int | bool | byte | char | short | long | float | double | void =>
    simp [TypeDesc.chars] at text

end Register

end Restack
