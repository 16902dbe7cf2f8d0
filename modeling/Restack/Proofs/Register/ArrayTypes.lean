import Restack.ElementType
import Restack.Proofs.Descriptor
import Restack.Proofs.Frame

set_option autoImplicit false

namespace Restack

open Register (IsType IsValue)

variable {d : String}

/-- If the view tells of an array, its descriptor can be read. -/
def ArrayView.Real (v : ArrayView) : Prop := ∀ d, v = .array d → IsType d

namespace ArrayView

theorem real_unknown : Real .unknown := fun _ same => by cases same

theorem real_null : Real .null := fun _ same => by cases same

theorem real_ofDescriptor (type : IsType d) : (ofDescriptor d).Real := by
  intro d' same
  unfold ofDescriptor at same
  split at same
  · cases same
    exact type
  · cases same

variable {a b : ArrayView}

theorem Real.merge (left : a.Real) (right : b.Real) : (a.merge b).Real := by
  unfold ArrayView.merge
  split
  · exact right
  · exact left
  · split
    · exact left
    · exact real_unknown

theorem Real.narrow (left : a.Real) (right : b.Real) : (a.narrow b).Real := by
  unfold ArrayView.narrow
  split
  · exact right
  · exact left
  · split
    · exact left
    · exact real_null

theorem Real.element (real : a.Real) {kinds : Kinds} {element : ArrayView}
    (found : a.element = .ok (kinds, element)) :
    element.Real ∧
    (kinds = .ofRef ∧ element = .unknown ∨ ∃ d, element = .array d ∧ kinds = .ofDescriptor d) := by
  unfold ArrayView.element at found
  split at found
  · cases found
  · cases found
    exact ⟨real_unknown, .inl ⟨rfl, rfl⟩⟩
  next d =>
    obtain ⟨t, done⟩ := real d rfl
    split at found
    next cs array =>
      cases found
      obtain ⟨inner, _, inner_done⟩ := TypeDesc.parse_element done array
      refine ⟨fun d' same => ?_, .inr ⟨_, rfl, rfl⟩⟩
      cases same
      exact ⟨inner, inner_done⟩
    next => cases found

end ArrayView

namespace Frame

def Real (s : Frame) : Prop := ∀ reg, (s.arrayOf reg).Real

theorem Real.join {s t : Frame} (left : s.Real) (right : t.Real) : (s.join t).Real := by
  intro reg
  rw [arrayOf_join]
  exact (left reg).merge (right reg)

theorem real_ofParameters {parameters : List (Option String)}
    (types : ∀ d, some d ∈ parameters → IsType d) (registers : Nat) :
    (ofParameters parameters registers).Real := by
  have start : empty.Real := fun reg => by
    simp only [arrayOf, empty, Trie.get_empty]
    exact ArrayView.real_unknown
  refine List.foldlRecOn (motive := Real) _ _ start fun s real parameter inside => ?_
  obtain ⟨_ | d, n⟩ := parameter
  · exact real
  · intro reg
    have type := types d (List.fst_mem_of_mem_zipIdx inside)
    simp only [arrayOf, placeParameter, Trie.get_set]
    split
    · exact ArrayView.real_ofDescriptor type
    · exact real reg

end Frame

namespace Register

variable {catalog : Catalog} {index : UInt32}

theorem Catalog.mem_of_look {α : Type} {table : Array α} {kind : Table} {a : α}
    (found : look table kind index = .ok a) :
    a ∈ table := by
  unfold look at found
  split at found
  next b there =>
    cases found
    exact Array.mem_of_getElem? there
  next => cases found

theorem Catalog.WellFormed.type (formed : catalog.WellFormed) (found : catalog.type index = .ok d) :
    IsType d := formed.types d (mem_of_look found)

theorem Catalog.WellFormed.field (formed : catalog.WellFormed) {f : FieldRef}
    (found : catalog.field index = .ok f) :
    IsValue f.descriptor := formed.fields f (mem_of_look found)

theorem Catalog.WellFormed.method (formed : catalog.WellFormed) {m : MethodRef}
    (found : catalog.method index = .ok m) :
    m.WellFormed := formed.methods m (mem_of_look found)

def Instr.Hinted (i : Instr) : Prop := ∀ d, i.resultType = some d → IsType d

end Register

end Restack
