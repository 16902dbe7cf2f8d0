import Restack.Proofs.ClassFile.OptionalEntries
import Restack.Proofs.ClassFile.Reader
import Restack.Proofs.Layout.CodeAttribute
import Restack.Proofs.Selection.Compile

set_option autoImplicit false

namespace Restack.ClassFile

variable {index : UInt16}

def HasConstant (look : Lookup) (descriptor : String) :
    Option FieldConstant → List AttributeInfo → Prop
  | none, attributes => attributes = []
  | some value, attributes => ∃ label index, attributes = [⟨label, Bytes.ofUInt16 index⟩] ∧
      look.text? label = some "ConstantValue" ∧ look.constant? descriptor index = some value

structure IsField (look : Lookup) (f : Register.Field) (info : MemberInfo) : Prop where
  access : info.access = (f.access &&& fieldFlags).toUInt16
  name : look.text? info.name = some f.id.name
  descriptor : look.text? info.descriptor = some f.id.descriptor
  constant : HasConstant look f.id.descriptor f.constant info.attributes

def HasCode (look : Lookup) : Option Bytes → List AttributeInfo → Prop
  | none, attributes => attributes = []
  | some content, attributes =>
    ∃ label, attributes = [⟨label, content⟩] ∧ look.text? label = some codeName

structure IsMethod (look : Lookup) (m : Register.Method × Option Bytes) (info : MemberInfo) :
    Prop where
  access : info.access = (m.1.access &&& methodFlags).toUInt16
  name : look.text? info.name = some m.1.id.name
  descriptor : look.text? info.descriptor = some m.1.id.descriptor
  code : HasCode look m.2 info.attributes

section Extension

variable {look more : Lookup} (extension : look.Extends more)
include extension

theorem IsField.extend {f : Register.Field} {info : MemberInfo} (is_field : IsField look f info) :
    IsField more f info := by
  refine ⟨is_field.access, Lookup.text?_extend extension is_field.name,
    Lookup.text?_extend extension is_field.descriptor, ?_⟩
  have constant := is_field.constant
  cases known : f.constant with
  | none => rwa [known] at constant
  | some value =>
    rw [known] at constant
    obtain ⟨label, index, attributes, labelled, holds⟩ := constant
    exact ⟨label, index, attributes, Lookup.text?_extend extension labelled,
      Lookup.constant?_extend extension holds⟩

theorem IsMethod.extend {m : Register.Method × Option Bytes} {info : MemberInfo}
    (is_method : IsMethod look m info) :
    IsMethod more m info := by
  refine ⟨is_method.access, Lookup.text?_extend extension is_method.name,
    Lookup.text?_extend extension is_method.descriptor, ?_⟩
  obtain ⟨m, code⟩ := m
  have has_code := is_method.code
  cases code with
  | none => exact has_code
  | some content =>
    obtain ⟨label, attributes, labelled⟩ := has_code
    exact ⟨label, attributes, Lookup.text?_extend extension labelled⟩

end Extension

section Members

variable {p later : Pool}

theorem text?_of_hasText {text : String} (there : p.HasText index text) :
    p.look.text? index = some text := by
  have there : p.look.entry? index = some (.utf8 (p.texts.encode text)) := there
  rw [Lookup.text?, there]
  exact p.texts.decode_encode text

theorem className?_of_hasClass {name : String} (there : p.HasClass index name) :
    p.look.className? index = some name := by
  obtain ⟨text, at_index, at_text⟩ := there
  rw [Lookup.className?, show p.look.entry? index = _ from at_index]
  exact text?_of_hasText at_text

theorem constantIndex_eq_ok {descriptor : String} {value : FieldConstant}
    (done : (constantIndex descriptor value).run p = (.ok index, later)) :
    p.Extends later ∧ later.look.constant? descriptor index = some value := by
  have number {e : Entry} (asked : (PoolM.request e).run p = (.ok index, later))
      (writable : e.Writable)
      (holds : later.look.constantOf? descriptor e = some value) :
      p.Extends later ∧ later.look.constant? descriptor index = some value := by
    refine ⟨PoolM.draws_of_requests (.one e writable) asked, ?_⟩
    rw [Lookup.constant?, show later.look.entry? index = _ from (Pool.request_eq_ok asked).2,
      Option.bind_some, holds]
  unfold constantIndex at done
  split at done
  -- The first five types take an int; each other type has a kind of its own.
  iterate 5 exact number done trivial rfl
  · exact number done trivial (by rw [Lookup.constantOf?, Int32.toInt32_toUInt32])
  · exact number done trivial rfl
  · exact number done trivial (by rw [Lookup.constantOf?, Int64.toInt64_toUInt64])
  · obtain ⟨-, text, at_index, at_text⟩ := PoolM.stringRef_eq_ok done
    refine ⟨PoolM.draws_stringRef _ done, ?_⟩
    rw [Lookup.constant?, show later.look.entry? index = _ from at_index, Option.bind_some,
      Lookup.constantOf?, text?_of_hasText at_text, Option.map_some]
  · obtain ⟨-, text, at_index, at_text⟩ := PoolM.classRef_eq_ok done
    refine ⟨PoolM.draws_classRef _ done, ?_⟩
    rw [Lookup.constant?, show later.look.entry? index = _ from at_index, Option.bind_some,
      Lookup.constantOf?, text?_of_hasText at_text, Option.map_some]
  · cases done

theorem utf8_extends {s : String} (done : (PoolM.utf8 s).run p = (.ok index, later)) :
    p.Extends later ∧ later.look.text? index = some s :=
  ⟨PoolM.draws_of_requests (PoolM.Requests.text s) done, text?_of_hasText (PoolM.utf8_eq_ok done).2⟩

theorem field_eq_ok {f : Register.Field} {part : Bytes}
    (done : (field f).run p = (.ok part, later)) :
    p.Extends later ∧ ∃ info, Bytes.Holds MemberInfo.read part info ∧
    IsField later.look f info := by
  obtain ⟨name, first, named, done⟩ := ExceptT.run_bind_eq_ok.1 done
  obtain ⟨descriptor, second, described, done⟩ := ExceptT.run_bind_eq_ok.1 done
  obtain ⟨named_extends, at_name⟩ := utf8_extends named
  obtain ⟨described_extends, at_descriptor⟩ := utf8_extends described
  have at_name := Lookup.text?_extend described_extends.look at_name
  have extended := named_extends.trans described_extends
  cases known : f.constant with
  | none =>
    rw [known] at done
    obtain ⟨rfl, rfl⟩ := ExceptT.run_pure_eq_ok.1 done
    refine ⟨extended, _, MemberInfo.holds_bare _ name descriptor, rfl, at_name, at_descriptor, ?_⟩
    rw [known]
    rfl
  | some value =>
    rw [known] at done
    obtain ⟨label, third, labelled, done⟩ := ExceptT.run_bind_eq_ok.1 done
    obtain ⟨index, last, valued, done⟩ := ExceptT.run_bind_eq_ok.1 done
    obtain ⟨rfl, rfl⟩ := ExceptT.run_pure_eq_ok.1 done
    obtain ⟨labelled_extends, at_label⟩ := utf8_extends labelled
    obtain ⟨valued_extends, at_value⟩ := constantIndex_eq_ok valued
    have since := labelled_extends.trans valued_extends
    have size : (Bytes.ofUInt16 index).length = 2 := rfl
    have holds := MemberInfo.holds_single (f.access &&& fieldFlags).toUInt16 name descriptor label
      (show (Bytes.ofUInt16 index).length < 2 ^ 32 by omega)
    rw [size] at holds
    refine ⟨extended.trans since, _, holds, rfl, Lookup.text?_extend since.look at_name,
      Lookup.text?_extend since.look at_descriptor, ?_⟩
    rw [known]
    exact ⟨label, index, rfl, Lookup.text?_extend valued_extends.look at_label, at_value⟩

theorem method_eq_ok {m : Register.Method} {code : Option Bytes} {part : Bytes}
    (done : (method m code).run p = (.ok part, later)) :
    p.Extends later ∧ (∀ content ∈ code, content.length ≤ part.length) ∧
      ((∀ content ∈ code, content.length < 2 ^ 32) →
        ∃ info, Bytes.Holds MemberInfo.read part info ∧ IsMethod later.look (m, code) info) := by
  obtain ⟨name, first, named, done⟩ := ExceptT.run_bind_eq_ok.1 done
  obtain ⟨descriptor, second, described, done⟩ := ExceptT.run_bind_eq_ok.1 done
  obtain ⟨named_extends, at_name⟩ := utf8_extends named
  obtain ⟨described_extends, at_descriptor⟩ := utf8_extends described
  have at_name := Lookup.text?_extend described_extends.look at_name
  have extended := named_extends.trans described_extends
  cases code with
  | none =>
    obtain ⟨rfl, rfl⟩ := ExceptT.run_pure_eq_ok.1 done
    refine ⟨extended, by simp, fun _ => ?_⟩
    exact ⟨_, MemberInfo.holds_bare _ name descriptor, rfl, at_name, at_descriptor, rfl⟩
  | some content =>
    obtain ⟨label, third, labelled, done⟩ := ExceptT.run_bind_eq_ok.1 done
    obtain ⟨rfl, rfl⟩ := ExceptT.run_pure_eq_ok.1 done
    obtain ⟨since, at_label⟩ := utf8_extends labelled
    refine ⟨extended.trans since, ?_, fun short => ?_⟩
    · rintro _ ⟨⟩
      simp only [List.length_append]
      omega
    exact ⟨_, MemberInfo.holds_single _ name descriptor label (short content rfl), rfl,
      Lookup.text?_extend since.look at_name, Lookup.text?_extend since.look at_descriptor, label,
      rfl, at_label⟩

end Members

/-- The body that is assembled for a method: with delayed literals it is the one whose literals were
placed. -/
def Placed (o : Options) (pool : Pool) (b placed : Body) : Prop :=
  if o.delayLiterals then ∃ last, b.Shortened last placed ∧ last.Extends pool else placed = b

/-- What the code of a method becomes. Whatever it refers to is still in the pool at the end, and if
the table is not too long, the content is read back as the code and table of the assembled body. -/
inductive AssembledFor (catalog : Register.Catalog) (o : Options) (handOver : HandOver)
    (pool : Pool) (m : Register.Method) : Bytes → Prop where
  | intro {code : Register.Code} {before after : Pool} {body placed last : Body} {content : Bytes}
      (coded : m.code = some code)
      (compiled : (methodBody catalog o handOver m code).run before = (.ok body, after))
      (kept : after.Extends pool) (place : Placed o pool body placed)
      (assembled : placed.assemble o = (.ok content, last))
      (read : (placed.rows.filter last.isSpanned).length ≤ 65535 → content.length < 2 ^ 32 →
        ∃ code table, last.code = .ok code ∧
        List.Forall₂ last.Packs (placed.rows.filter last.isSpanned) table ∧
        CodeContent.read content = some (⟨300, last.locals.toNat, code, table, 0⟩, [])) :
      AssembledFor catalog o handOver pool m content

/-- Exactly the methods that have code have a code attribute. -/
def CodeFor (catalog : Register.Catalog) (o : Options) (handOver : HandOver) (pool : Pool)
    (m : Register.Method) :
    Option Bytes → Prop
  | none => m.code = none
  | some content => AssembledFor catalog o handOver pool m content

theorem CodeFor.extend {catalog : Register.Catalog} {o : Options} {handOver : HandOver}
    {pool later : Pool} {m : Register.Method} {code : Option Bytes}
    (made : CodeFor catalog o handOver pool m code) (extended : pool.Extends later) :
    CodeFor catalog o handOver later m code := by
  cases code with
  | none => exact made
  | some content =>
    obtain ⟨coded, compiled, kept, place, assembled, read⟩ := made
    refine .intro coded compiled (kept.trans extended) ?_ assembled read
    unfold Placed at place ⊢
    split at place
    next delay =>
      obtain ⟨last, shortened, grown⟩ := place
      rw [if_pos delay]
      exact ⟨last, shortened, grown.trans extended⟩
    next undelayed => rwa [if_neg undelayed]

theorem read_of_assemble {o : Options} {b last : Body} {content : Bytes}
    (assembled : b.assemble o = (.ok content, last))
    (few : (b.rows.filter last.isSpanned).length ≤ 65535) (short : content.length < 2 ^ 32) :
    ∃ code table, last.code = .ok code ∧
    List.Forall₂ last.Packs (b.rows.filter last.isSpanned) table ∧
      CodeContent.read content = some (⟨300, last.locals.toNat, code, table, 0⟩, []) := by
  obtain ⟨-, code, table, coded, packs, rfl⟩ := Body.packs_of_assemble assembled
  have shorter : code.length < 2 ^ 32 := by
    simp only [Body.encodeAttribute, List.length_append] at short
    omega
  have fewer : table.length < 2 ^ 16 := by
    rw [← packs.length_eq]
    omega
  exact ⟨code, table, coded, packs, CodeContent.read_short shorter fewer⟩

section Codes

variable {catalog : Register.Catalog} {o : Options} {handOver : HandOver} {p later : Pool}
  {codes : List Bytes}

theorem methodBody_extends {m : Register.Method} {code : Register.Code} {body : Body}
    (done : (methodBody catalog o handOver m code).run p = (.ok body, later)) :
    p.Extends later := by
  obtain ⟨_, middle, compiled, done⟩ := ExceptT.run_bind_eq_ok.1 done
  obtain ⟨-, rfl⟩ := ExceptT.run_pure_eq_ok.1 done
  exact Register.compile_extends (withinPool_eq_ok compiled)

theorem finish_eq_ok {bodies rest : List Body}
    (done : finish p bodies o handOver = (.ok codes, rest, later)) :
    p.Extends later ∧
      List.Forall₂ (fun b content => ∃ placed last, Placed o later b placed ∧
        placed.assemble o = (.ok content, last))
        bodies codes := by
  unfold finish at done
  have labelled : p.Extends
      (if bodies.isEmpty then (.ok 0, p) else (PoolM.utf8 codeName).run p : _ × Pool).2 := by
    split
    · exact .refl p
    · exact (PoolM.Requests.text codeName).adds (fun _ _ writable _ => writable) p
  split at done
  next => cases done
  next index middle label =>
    rw [label] at labelled
    by_cases delay : o.delayLiterals = true
    · simp only [delay, if_true] at done
      obtain ⟨shortened, added⟩ := placeLiterals_shortened middle bodies handOver
      rcases all : assembleAll o (placeLiterals middle bodies handOver).1 #[] #[] with
        ⟨result, assembled⟩
      rw [all] at done
      cases done
      obtain ⟨more, rfl, each⟩ := assembleAll_eq_ok all
      refine ⟨labelled.trans (Pool.extends_of_addsNumbers added),
        (forall₂_comp shortened each).imp ?_⟩
      rintro b content ⟨placed, placing, last, assembled⟩
      refine ⟨placed, last, ?_, assembled⟩
      rw [Placed, if_pos delay]
      exact ⟨_, placing, .refl _⟩
    · simp only [delay, Bool.false_eq_true, if_false] at done
      rcases all : assembleAll o bodies #[] #[] with ⟨result, assembled⟩
      rw [all] at done
      cases done
      obtain ⟨more, rfl, each⟩ := assembleAll_eq_ok all
      refine ⟨labelled, each.imp ?_⟩
      rintro b content ⟨last, assembled⟩
      exact ⟨b, last, by rw [Placed, if_neg delay], assembled⟩

theorem bodyWith_eq_ok {m : Register.Method} {found : Option Body}
    (done : (bodyWith catalog o handOver m).run p = (.ok found, later)) :
    p.Extends later ∧
      (found = none ∧ m.code = none ∨
        ∃ code body, found = some body ∧ m.code = some code ∧
        (methodBody catalog o handOver m code).run p = (.ok body, later)) := by
  unfold bodyWith at done
  split at done
  next code known =>
    rw [map_eq_pure_bind] at done
    obtain ⟨body, middle, compiled, done⟩ := ExceptT.run_bind_eq_ok.1 done
    obtain ⟨rfl, rfl⟩ := ExceptT.run_pure_eq_ok.1 done
    exact ⟨methodBody_extends compiled, .inr ⟨code, body, rfl, known, compiled⟩⟩
  next known =>
    obtain ⟨rfl, rfl⟩ := ExceptT.run_pure_eq_ok.1 done
    exact ⟨.refl _, .inl ⟨rfl, known⟩⟩

theorem pairUp_forall₂ {R : Register.Method → Body → Prop} {S : Body → Bytes → Prop}
    {methods : List Register.Method} {found : List (Option Body)}
    (bodies : List.Forall₂ (fun m b => b = none ∧ m.code = none ∨ ∃ body, b = some body ∧
      m.code ≠ none ∧ R m body) methods found)
    (coded : List.Forall₂ S found.reduceOption codes) :
    ∀ row ∈ pairUp methods codes, row.2 = none ∧ row.1.code = none ∨
      ∃ body content, row.2 = some content ∧ R row.1 body ∧ S body content := by
  induction bodies generalizing codes with
  | nil => simp [pairUp]
  | @cons m b methods found here _ ih =>
    rcases here with ⟨rfl, none⟩ | ⟨body, rfl, some, made⟩
    · have unfolded : pairUp (m :: methods) codes = (m, Option.none) :: pairUp methods codes := by
        simp [pairUp, none]
      rw [unfolded, List.forall_mem_cons]
      exact ⟨.inl ⟨rfl, none⟩, ih coded⟩
    · obtain ⟨code, known⟩ := Option.ne_none_iff_exists'.1 some
      cases coded with
      | @cons _ content _ codes assembled rest =>
        have unfolded : pairUp (m :: methods) (content :: codes) = (m, Option.some content) ::
            pairUp methods codes := by
          simp [pairUp, known]
        rw [unfolded, List.forall_mem_cons]
        exact ⟨.inr ⟨body, content, rfl, made, assembled⟩, ih rest⟩

theorem codeAttributes_eq_ok {methods : List Register.Method}
    (done : (codeAttributes catalog o handOver methods).run p = (.ok codes, later)) :
    p.Extends later ∧ ∀ row ∈ pairUp methods codes,
      CodeFor catalog o handOver later row.1 row.2 := by
  obtain ⟨bodies, middle, compiled, done⟩ := ExceptT.run_bind_eq_ok.1 done
  obtain ⟨begun, found, rfl, each⟩ :=
    ExceptT.run_filterMapM_eq_ok Pool.Extends .refl (fun _ _ _ => .trans)
    (fun _ _ _ _ ran => (bodyWith_eq_ok ran).1) compiled
  rcases finished : finish middle found.reduceOption o handOver with ⟨result, rest, last⟩
  have same : (result, last) = (.ok codes, later) := by
    rw [← done]
    change _ =
      ((finish middle found.reduceOption o handOver).1,
        (finish middle found.reduceOption o handOver).2.2)
    rw [finished]
  cases same
  obtain ⟨extended, coded⟩ := finish_eq_ok finished
  refine ⟨begun.trans extended, ?_⟩
  have bodies :
      List.Forall₂ (fun m b => b = none ∧ m.code = none ∨ ∃ body, b = some body ∧ m.code ≠ none ∧
      ∃ code before after, m.code = some code ∧ (methodBody catalog o handOver m code).run before =
        (.ok body, after) ∧
        after.Extends later) methods found := by
    refine each.imp ?_
    rintro m b ⟨before, after, ran, kept⟩
    rcases (bodyWith_eq_ok ran).2 with none | ⟨code, body, rfl, known, made⟩
    · exact .inl none
    · exact .inr ⟨body, rfl, by simp [known], code, before, after, known, made, kept.trans extended⟩
  rintro ⟨m, content⟩ member
  rcases pairUp_forall₂ bodies coded _ member with ⟨rfl, none⟩ |
    ⟨body, content, rfl, made, placed, last, place, assembled⟩
  · exact none
  · obtain ⟨code, before, after, known, compiled, kept⟩ := made
    exact ⟨known, compiled, kept, place, assembled, read_of_assemble assembled⟩

end Codes

def ClassInfo.entry? (info : ClassInfo) (index : UInt16) : Option Entry :=
  (info.entries.find? (·.1 = index)).map (·.2)

def ClassInfo.look (info : ClassInfo) (texts : TextForm) : Lookup := ⟨texts, info.entry?⟩

theorem find?_of_readPool {p : Pool} (extended : (Pool.empty p.layout p.texts).Extends p)
    (rest : Bytes) :
    ∃ entries, readPool (p.encode ++ rest) = some (entries, rest) ∧
      ∀ index e, p.entry? index = some e → (entries.find? (·.1 = index)).map (·.2) = some e := by
  obtain ⟨lows, highs, arranged, writable⟩ :=
    extended.arranged Entry.Writable (fun _ _ fine => fine)
    ⟨[], [], Pool.arranged_empty _ _, by simp⟩
  refine ⟨Pool.enumerate 1 (Pool.Arranged.written p lows highs), ?_, ?_⟩
  · rw [readPool, arranged.read_encode_append writable]
    simp only [Option.bind_eq_bind, Option.bind_some, if_true]
  · intro index e there
    have member := (arranged.mem_written index e).2 (.inl there)
    obtain ⟨⟨index', e'⟩, found⟩ := Option.isSome_iff_exists.1
      (List.find?_isSome (p := (·.1 = index)) |>.2 ⟨_, member, by simp⟩)
    have same : index' = index := by simpa using List.find?_some found
    subst same
    rw [found, Option.map_some]
    rcases (arranged.mem_written _ _).1 (List.mem_of_find?_eq_some found) with other |
      ⟨⟨-, -, free⟩, -⟩
    · rw [there] at other
      exact other.symm
    · exact absurd ⟨_, e, there, Nat.le_refl _, by have := e.width_pos; omega⟩ free

structure ClassInfo.Describes (info : ClassInfo) (texts : TextForm) (c : Register.Class)
    (rows : List (Register.Method × Option Bytes)) : Prop where
  version : info.minor = 0 ∧ info.major = 49
  access : info.access = classAccess c.access
  name : (info.look texts).className? info.this = some c.name
  super : ∀ name, c.super = some name → (info.look texts).className? info.super = some name
  root : c.super = none → info.super = 0
  interfaces : List.Forall₂ (fun name index => (info.look texts).className? index = some name)
    c.interfaces info.interfaces
  fields : List.Forall₂ (IsField (info.look texts)) c.fields info.fields
  methods : List.Forall₂ (IsMethod (info.look texts)) rows info.methods
  attributes : info.attributes = []

section Whole

variable {catalog : Register.Catalog} {o : Options} {texts : TextForm} {handOver : HandOver}
  {c : Register.Class}
  {p pool : Pool}

theorem superRef_eq_ok (done : (superRef c).run p = (.ok index, pool)) :
    p.Extends pool ∧ (∀ name, c.super = some name → pool.look.className? index = some name) ∧
      (c.super = none → index = 0) := by
  unfold superRef at done
  split at done
  next name known =>
    refine ⟨PoolM.draws_classRef name done, ?_, by simp [known]⟩
    rintro _ same
    cases known.symm.trans same
    exact className?_of_hasClass (PoolM.classRef_eq_ok done).2
  next known =>
    obtain ⟨rfl, rfl⟩ := ExceptT.run_pure_eq_ok.1 done
    exact ⟨.refl _, by simp [known], fun _ => rfl⟩

theorem holds_mapM {α : Type} {f : α → PoolM Bytes} {T : Pool → α → MemberInfo → Prop}
    {fits : α → Prop} (steps : ∀ x s y t, (f x).run s = (.ok y, t) → s.Extends t)
    (each : ∀ x s y t, (f x).run s = (.ok y, t) → fits x →
      ∃ info, Bytes.Holds MemberInfo.read y info ∧ T t x info)
    (grow : ∀ x s t info, T s x info → s.Extends t → T t x info) {xs : List α} {parts : List Bytes}
    (done : (xs.mapM f).run p = (.ok parts, pool)) (all : ∀ x ∈ xs, fits x) :
    ∃ infos, List.Forall₂ (Bytes.Holds MemberInfo.read) parts infos ∧
    List.Forall₂ (T pool) xs infos := by
  obtain ⟨-, ran⟩ := ExceptT.run_mapM_eq_ok Pool.Extends .refl (fun _ _ _ => .trans) steps done
  clear done
  induction ran with
  | nil => exact ⟨[], .nil, .nil⟩
  | @cons x part xs parts here _ ih =>
    obtain ⟨before, after, ran, kept⟩ := here
    obtain ⟨info, holds, told⟩ := each x before part after ran (all x List.mem_cons_self)
    obtain ⟨infos, others, others_told⟩ := ih fun y member => all y (List.mem_cons_of_mem x member)
    exact ⟨info :: infos, .cons holds others, .cons (grow x after pool info told kept) others_told⟩

theorem afterPool_eq_ok {rest : Bytes}
    (done : (afterPool catalog o handOver c).run p = (.ok rest, pool))
    (interfaces_few : c.interfaces.length ≤ 65535) (fields_few : c.fields.length ≤ 65535)
    (methods_few : c.methods.length ≤ 65535) :
    p.Extends pool ∧ ∃ rows, rows.map Prod.fst = c.methods ∧
    (∀ row ∈ rows, CodeFor catalog o handOver pool row.1 row.2) ∧
      (∀ row ∈ rows, ∀ content ∈ row.2, content.length ≤ rest.length) ∧
      ((∀ row ∈ rows, ∀ content ∈ row.2, content.length < 2 ^ 32) →
        ∀ entries,
          (∀ index e, pool.entry? index = some e →
            (entries.find? (·.1 = index)).map (·.2) = some e) →
          ∃ info, ClassInfo.readBody 0 49 entries rest = some (info, []) ∧ info.entries = entries ∧
          info.Describes pool.texts c rows) := by
  rw [afterPool_eq] at done
  obtain ⟨this, p₁, named, done⟩ := ExceptT.run_bind_eq_ok.1 done
  obtain ⟨super, p₂, above, done⟩ := ExceptT.run_bind_eq_ok.1 done
  obtain ⟨interfaces, p₃, implemented, done⟩ := ExceptT.run_bind_eq_ok.1 done
  obtain ⟨fields, p₄, with_fields, done⟩ := ExceptT.run_bind_eq_ok.1 done
  obtain ⟨codes, p₅, coded, done⟩ := ExceptT.run_bind_eq_ok.1 done
  obtain ⟨methods, p₆, with_methods, done⟩ := ExceptT.run_bind_eq_ok.1 done
  obtain ⟨rfl, rfl⟩ := ExceptT.run_pure_eq_ok.1 done
  have field_steps (f : Register.Field) (s : Pool) (y : Bytes) (t : Pool)
      (ran : (withinPool (.field f.id.name) (field f)).run s = (.ok y, t)) :=
        field_eq_ok (withinPool_eq_ok ran)
  have method_steps (row : Register.Method × Option Bytes) (s : Pool) (y : Bytes) (t : Pool)
      (ran : (method row.1 row.2).run s = (.ok y, t)) := method_eq_ok ran
  have e₁ := PoolM.draws_classRef c.name named
  obtain ⟨e₂, with_super, without_super⟩ := superRef_eq_ok above
  obtain ⟨e₃, each_interface⟩ := ExceptT.run_mapM_eq_ok Pool.Extends .refl (fun _ _ _ => .trans)
    (fun name _ _ _ ran => PoolM.draws_classRef name ran) implemented
  obtain ⟨e₄, each_field⟩ := ExceptT.run_mapM_eq_ok Pool.Extends .refl (fun _ _ _ => .trans)
    (fun f s y t ran => (field_steps f s y t ran).1) with_fields
  obtain ⟨e₅, codes_for⟩ := codeAttributes_eq_ok coded
  obtain ⟨e₆, each_method⟩ := ExceptT.run_mapM_eq_ok Pool.Extends .refl (fun _ _ _ => .trans)
    (fun row s y t ran => (method_steps row s y t ran).1) with_methods
  have from₄ := e₅.trans e₆
  have from₃ := e₄.trans from₄
  have from₂ := e₃.trans from₃
  have from₁ := e₂.trans from₂
  refine ⟨e₁.trans from₁, pairUp c.methods codes, map_fst_pairUp _ _, fun row member => ?_, ?_, ?_⟩
  · exact (codes_for row member).extend e₆
  · intro row member content held
    obtain ⟨i, found⟩ := List.getElem?_of_mem member
    obtain ⟨part, at_part, before, after, ran, -⟩ := forall₂_getElem? each_method found
    have small := (method_steps row before part after ran).2.1 content held
    have inside : part.length ≤ methods.flatten.length :=
      (List.sublist_flatten_of_mem (List.mem_of_getElem? at_part)).length_le
    simp only [List.length_append]
    omega
  · intro short entries held
    obtain ⟨field_infos, fields_hold, fields_told⟩ := holds_mapM
      (fun f s y t ran => (field_steps f s y t ran).1)
        (fun f s y t ran (_ : True) => (field_steps f s y t ran).2)
      (fun f s t info told grown => told.extend grown.look) with_fields (fun _ _ => trivial)
    obtain ⟨method_infos, methods_hold, methods_told⟩ := holds_mapM
      (fun row s y t ran => (method_steps row s y t ran).1)
        (fun row s y t ran => (method_steps row s y t ran).2.2)
      (fun row s t info told grown => told.extend grown.look) with_methods short
    have interfaces_read : Bytes.Holds (Bytes.counted readIndex)
        (count interfaces ++ (interfaces.map Bytes.ofUInt16).flatten) interfaces := by
      refine Bytes.holds_counted ?_ (each_interface.length_eq ▸ interfaces_few)
      rw [List.forall₂_map_left_iff]
      exact List.forall₂_same.2 fun index _ => holds_readIndex index
    have fields_read : Bytes.Holds (Bytes.counted MemberInfo.read)
        (count fields ++ fields.flatten) field_infos := by
      have read := Bytes.holds_counted fields_hold (fields_told.length_eq ▸ fields_few)
      rwa [← fields_hold.length_eq] at read
    have methods_read : Bytes.Holds (Bytes.counted MemberInfo.read)
        (count methods ++ methods.flatten) method_infos := by
      have rows : (pairUp c.methods codes).length ≤ 65535 := by
        rwa [← List.length_map Prod.fst, map_fst_pairUp]
      have read := Bytes.holds_counted methods_hold (methods_told.length_eq ▸ rows)
      rwa [← methods_hold.length_eq] at read
    refine ⟨⟨0, 49, entries, classAccess c.access, this, super, interfaces, field_infos,
      method_infos, []⟩, ?_, rfl, ?_⟩
    · have grouped : Bytes.ofUInt16 (classAccess c.access) ++ Bytes.ofUInt16 this ++
          Bytes.ofUInt16 super ++
          count interfaces ++ interfaces.flatMap Bytes.ofUInt16 ++ count fields ++ fields.flatten ++
          count methods ++ methods.flatten ++ Bytes.ofUInt16 0 =
          Bytes.ofUInt16 (classAccess c.access) ++ (Bytes.ofUInt16 this ++ (Bytes.ofUInt16 super ++
            ((count interfaces ++ (interfaces.map Bytes.ofUInt16).flatten) ++
              ((count fields ++ fields.flatten) ++
              ((count methods ++ methods.flatten) ++ (Bytes.ofUInt16 0 ++ [])))))) := by
        simp only [List.append_assoc, List.flatMap_def, List.append_nil]
      rw [grouped]
      simp only [ClassInfo.readBody, holds_readIndex _ _, interfaces_read _, fields_read _,
        methods_read _, holds_noAttributes _, Option.bind_eq_bind, Option.bind_some]
      rfl
    · have known {info : ClassInfo} (same : info.entries = entries) :
          pool.look.Extends (info.look pool.texts) := by
        subst same
        exact ⟨rfl, held⟩
      refine ⟨⟨rfl, rfl⟩, rfl, ?_, ?_, without_super, ?_, ?_, ?_, rfl⟩
      · have at_this := className?_of_hasClass (PoolM.classRef_eq_ok named).2
        exact Lookup.className?_extend (known rfl) (Lookup.className?_extend from₁.look at_this)
      · intro name there
        exact Lookup.className?_extend (known rfl)
          (Lookup.className?_extend from₂.look (with_super name there))
      · refine each_interface.imp ?_
        rintro name index ⟨before, after, ran, kept⟩
        have at_index := className?_of_hasClass (PoolM.classRef_eq_ok ran).2
        exact Lookup.className?_extend (known rfl)
          (Lookup.className?_extend (kept.trans from₃).look at_index)
      · exact fields_told.imp fun f info told => (told.extend from₄.look).extend (known rfl)
      · exact methods_told.imp fun row info told => told.extend (known rfl)

theorem read_header (rest : Bytes) :
    ClassInfo.read (header ++ rest) =
      (readPool rest).bind fun (entries, bytes) => ClassInfo.readBody 0 49 entries bytes := by
  have magic : Bytes.word 4 (header ++ rest) = some (0xcafebabe, [0, 0, 0, 49] ++ rest) :=
    Bytes.word_append [0xca, 0xfe, 0xba, 0xbe] _
  have minor : Bytes.word 2 ([0, 0, 0, 49] ++ rest) = some (0, [0, 49] ++ rest) :=
    Bytes.word_append [0, 0] _
  have major : Bytes.word 2 ([0, 49] ++ rest) = some (49, rest) := Bytes.word_append [0, 49] _
  rw [ClassInfo.read, readMagic, magic]
  simp only [Option.bind_eq_bind, Option.bind_some, if_true, minor, major]

theorem write_eq_ok {bytes : Bytes} (done : write catalog o c texts handOver = .ok bytes) :
    ∃ used, (used = o ∨ used = .all) ∧ writeWith catalog used c texts handOver = .ok bytes := by
  have unwrapped {result : Except Fault Bytes}
      (inside : within (.class c.name) result = .ok bytes) :
      result = .ok bytes := by
    cases result with
    | ok _ => exact inside
    | error _ => cases inside
  have done := unwrapped done
  split at done
  next f failed =>
    split at done
    · exact ⟨.all, .inr rfl, done⟩
    · cases done
  next bytes' ok =>
    cases done
    exact ⟨o, .inl rfl, ok⟩

theorem writeWith_eq_ok {bytes : Bytes} (done : writeWith catalog o c texts handOver = .ok bytes) :
    ∃ layout rest pool, (afterPool catalog o handOver c).run (.empty layout texts) =
      (.ok rest, pool) ∧
      bytes = header ++ (pool.encode ++ rest) := by
  unfold writeWith at done
  rcases ran : (afterPool catalog o handOver c).run
    (.empty (if o.splitPool then .split else .simple) texts) with ⟨result, pool⟩
  rw [ran] at done
  obtain ⟨rest, rfl, rfl⟩ := Except.map_eq_ok.1 done
  exact ⟨_, rest, pool, ran, List.append_assoc _ _ _⟩

end Whole

/-- Whatever the options, a class file for a class with no more interfaces, fields and methods than
can be counted is read with nothing left over and tells everything of the class: each method has its
own code, and all that code refers to is in the pool. This is so exactly if no code attribute is
longer than its size can say. -/
theorem write_read_iff (catalog : Register.Catalog) (o : Options) (c : Register.Class)
    (texts : TextForm) (handOver : HandOver) (bytes : Bytes)
    (written : write catalog o c texts handOver = .ok bytes)
    (interfaces : c.interfaces.length ≤ 65535) (fields : c.fields.length ≤ 65535)
    (methods : c.methods.length ≤ 65535) :
    ∃ used pool rows, (used = o ∨ used = .all) ∧
    writeWith catalog used c texts handOver = .ok bytes ∧
      rows.map Prod.fst = c.methods ∧
      (∀ row ∈ rows, CodeFor catalog used handOver pool row.1 row.2) ∧
      (∀ row ∈ rows, ∀ content ∈ row.2, content.length ≤ bytes.length) ∧
      ((∃ info, ClassInfo.read bytes = some (info, []) ∧ info.Describes texts c rows ∧
          ∀ index e, pool.entry? index = some e → info.entry? index = some e) ↔
        ∀ row ∈ rows, ∀ content ∈ row.2, content.length < 2 ^ 32) := by
  obtain ⟨used, which, done⟩ := write_eq_ok written
  obtain ⟨layout, rest, pool, ran, rfl⟩ := writeWith_eq_ok done
  obtain ⟨extended, rows, of_methods, coded, inside, read⟩ :=
    afterPool_eq_ok ran interfaces fields methods
  refine ⟨used, pool, rows, which, done, of_methods, coded, ?_, ?_, fun short => ?_⟩
  · intro row member content held
    have small := inside row member content held
    simp only [List.length_append]
    omega
  · rintro ⟨info, found, describes, -⟩ row member content held
    obtain ⟨i, at_row⟩ := List.getElem?_of_mem member
    obtain ⟨told, at_told, is_method⟩ := forall₂_getElem? describes.methods at_row
    have has_code := is_method.code
    rw [show row.2 = some content from held] at has_code
    obtain ⟨label, attributes, -⟩ := has_code
    exact ClassInfo.length_of_read found told (List.mem_of_getElem? at_told) ⟨label, content⟩
      (by simp [attributes])
  · have form : pool.texts = texts := extended.texts_eq
    have empty : Pool.empty pool.layout pool.texts = Pool.empty layout texts := by
      rw [extended.layout_eq, form]; rfl
    obtain ⟨entries, listed, known⟩ := find?_of_readPool (empty ▸ extended) rest
    obtain ⟨info, body, rfl, describes⟩ := read short entries known
    rw [form] at describes
    refine ⟨info, ?_, describes, known⟩
    rw [read_header, listed]
    exact body

/-- An interface, a field with a value, a method without code and one with code. -/
def sampleClass : Register.Class :=
  { name := "a/B"
    access := 1
    super := some "a/A"
    interfaces := ["a/I"]
    fields := [⟨⟨"a/B", "x", "J"⟩, 0x18, some (.long 5)⟩]
    methods :=
      [⟨⟨"a/B", "f", [], "V"⟩, 0x401, none⟩,
        ⟨⟨"a/B", "g", [], "V"⟩, 9, some ⟨0, [], [.ofOpcode 14 0 1 []]⟩⟩] }

theorem sampleClass_read :
    ∃ bytes, write {} .none sampleClass = .ok bytes ∧ sampleClass.interfaces.length ≤ 65535 ∧
      sampleClass.fields.length ≤ 65535 ∧ sampleClass.methods.length ≤ 65535 ∧
      ∃ info rows, ClassInfo.read bytes = some (info, []) ∧
      info.Describes .modifiedUtf8 sampleClass rows ∧
        rows.map Prod.fst = sampleClass.methods := by
  have small : (write {} .none sampleClass).toOption.any (·.length < 1000) = true := by cbv
  cases written : write {} .none sampleClass with
  | error f => rw [written] at small; cases small
  | ok bytes =>
    rw [written] at small
    have small : bytes.length < 1000 := by simpa [Except.toOption] using small
    refine ⟨bytes, rfl, by decide, by decide, by decide, ?_⟩
    obtain ⟨used, pool, rows, -, -, of_methods, -, inside, read⟩ :=
      write_read_iff {} .none sampleClass .modifiedUtf8 .asListed bytes written (by decide)
        (by decide) (by decide)
    obtain ⟨info, found, describes, -⟩ := read.2 fun row member content held => by
      have := inside row member content held
      omega
    exact ⟨info, rows, found, describes, of_methods⟩

end Restack.ClassFile
