import Restack.Pool.Reference
import Restack.Proofs.Success

set_option autoImplicit false

namespace Restack

variable {index : UInt16} {name : String}

namespace Pool

variable {p later : Pool}

/-- Every entry is still at its index, and texts are written as before. -/
structure Grows (p later : Pool) : Prop where
  texts : later.texts = p.texts
  entries : ∀ index e, p.entry? index = some e → later.entry? index = some e

theorem Grows.refl (p : Pool) : p.Grows p := ⟨rfl, fun _ _ there => there⟩

theorem Grows.trans (a b c : Pool) (first : a.Grows b) (second : b.Grows c) : a.Grows c :=
  ⟨second.texts.trans first.texts, fun index e there => second.entries index e
    (first.entries index e there)⟩

theorem insert_eq_ok {e : Entry} {low : Bool} (done : p.insert e low = (.ok index, later)) :
    p.Grows later ∧ later.entry? index = some e := by
  have bounded := p.bounded
  unfold insert at done
  split at done
  · cases done
  · next room =>
    have fits : p.low.size + p.high.size + e.width ≤ limit := by
      unfold space at room
      omega
    by_cases at_low : (low || !p.isSplit) = true
    · simp only [at_low, if_true] at done
      cases done
      exact ⟨⟨rfl, fun _ _ there => entryAt_lowPlaces fits there⟩, entryAt_lowPlaces_new fits⟩
    · simp only [at_low] at done
      cases done
      exact ⟨⟨rfl, fun _ _ there => entryAt_highPlaces there⟩, entryAt_highPlaces_new fits⟩

theorem request_eq_ok {e : Entry} (done : p.request e = (.ok index, later)) :
    p.Grows later ∧ later.entry? index = some e := by
  unfold request at done
  cases known : p.find? e with
  | some old =>
    rw [known] at done
    cases done
    exact ⟨.refl p, p.found e index known⟩
  | none =>
    rw [known] at done
    exact insert_eq_ok done

def HasText (p : Pool) (index : UInt16) (text : String) : Prop :=
  p.entry? index = some (.utf8 (p.texts.encode text))

theorem HasText.grow {text : String} (known : p.HasText index text) (grows : p.Grows later) :
    later.HasText index text := by
  rw [HasText, grows.texts]
  exact grows.entries _ _ known

def HasClass (p : Pool) (index : UInt16) (name : String) : Prop :=
  ∃ text, p.entry? index = some (.class text) ∧ p.HasText text name

theorem HasClass.grow (known : p.HasClass index name) (grows : p.Grows later) :
    later.HasClass index name := by
  obtain ⟨text, at_index, at_text⟩ := known
  exact ⟨text, grows.entries _ _ at_index, at_text.grow grows⟩

def HasNameType (p : Pool) (index : UInt16) (name descriptor : String) : Prop :=
  ∃ n d, p.entry? index = some (.nameType n d) ∧ p.HasText n name ∧ p.HasText d descriptor

theorem HasNameType.grow {descriptor : String} (known : p.HasNameType index name descriptor)
    (grows : p.Grows later) : later.HasNameType index name descriptor := by
  obtain ⟨n, d, at_index, at_name, at_descriptor⟩ := known
  exact ⟨n, d, grows.entries _ _ at_index, at_name.grow grows, at_descriptor.grow grows⟩

def HasMember (p : Pool) (make : UInt16 → UInt16 → Entry) (index : UInt16)
    (owner name descriptor : String) : Prop :=
  ∃ o nt, p.entry? index = some (make o nt) ∧ p.HasClass o owner ∧ p.HasNameType nt name descriptor

theorem HasMember.grow {make : UInt16 → UInt16 → Entry} {owner descriptor : String}
    (known : p.HasMember make index owner name descriptor) (grows : p.Grows later) :
    later.HasMember make index owner name descriptor := by
  obtain ⟨o, nt, at_index, of_class, of_member⟩ := known
  exact ⟨o, nt, grows.entries _ _ at_index, of_class.grow grows, of_member.grow grows⟩

end Pool

namespace PoolM

variable {later : Pool}

theorem run_utf8 (s : String) (p : Pool) :
    (utf8 s).run p =
      (if (p.texts.encode s).length > 65535 then
        throw (.ofCause (.textTooLong (p.texts.encode s).length))
        else request (.utf8 (p.texts.encode s)) : PoolM UInt16).run p := rfl

theorem utf8_eq_ok {p : Pool} {s : String} (done : (utf8 s).run p = (.ok index, later)) :
    p.Grows later ∧ later.HasText index s := by
  rw [run_utf8] at done
  split at done
  · cases done
  · obtain ⟨grows, there⟩ := Pool.request_eq_ok done
    rw [Pool.HasText, grows.texts]
    exact ⟨grows, there⟩

theorem classRef_eq_ok {p : Pool} (done : (classRef name).run p = (.ok index, later)) :
    p.Grows later ∧ later.HasClass index name := by
  obtain ⟨text, middle, named, asked⟩ := ExceptT.run_bind_eq_ok.1 done
  obtain ⟨grows, at_text⟩ := utf8_eq_ok named
  obtain ⟨grows', at_index⟩ := Pool.request_eq_ok asked
  exact ⟨grows.trans _ _ _ grows', text, at_index, at_text.grow grows'⟩

theorem stringRef_eq_ok {p : Pool} {s : String} (done : (stringRef s).run p = (.ok index, later)) :
    p.Grows later ∧ ∃ text, later.entry? index = some (.string text) ∧ later.HasText text s := by
  obtain ⟨text, middle, asked_text, asked⟩ := ExceptT.run_bind_eq_ok.1 done
  obtain ⟨grows, at_text⟩ := utf8_eq_ok asked_text
  obtain ⟨grows', at_index⟩ := Pool.request_eq_ok asked
  exact ⟨grows.trans _ _ _ grows', text, at_index, at_text.grow grows'⟩

theorem nameType_eq_ok {p : Pool} {descriptor : String}
    (done : (nameType name descriptor).run p = (.ok index, later)) :
    p.Grows later ∧ later.HasNameType index name descriptor := by
  obtain ⟨n, first, asked_name, rest⟩ := ExceptT.run_bind_eq_ok.1 done
  obtain ⟨d, second, asked_descriptor, asked⟩ := ExceptT.run_bind_eq_ok.1 rest
  obtain ⟨grows, at_name⟩ := utf8_eq_ok asked_name
  obtain ⟨grows', at_descriptor⟩ := utf8_eq_ok asked_descriptor
  obtain ⟨grows'', at_index⟩ := Pool.request_eq_ok asked
  have from_first := grows'.trans _ _ _ grows''
  exact ⟨grows.trans _ _ _ from_first, n, d, at_index, at_name.grow from_first,
    at_descriptor.grow grows''⟩

end PoolM

end Restack
