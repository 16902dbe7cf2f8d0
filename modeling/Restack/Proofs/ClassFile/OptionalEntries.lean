import Restack.ClassFile
import Restack.Proofs.Layout.Encodable
import Restack.Proofs.Pass.Simplify
import Restack.Proofs.Pool.Room

set_option autoImplicit false

namespace Restack.ClassFile

variable {catalog : Register.Catalog} {texts : TextForm} {handOver : HandOver} {c : Register.Class}

/-- A class up to the point where its literals are placed. -/
structure Outline where
  this : UInt16
  super : UInt16
  interfaces : List UInt16
  fields : List Bytes
  bodies : List Body

abbrev Placing := Pool → List Body → List Body × Pool

/-- Requests the name of the attribute that holds code, if there is any code. -/
def labelCode : List Body → PoolM Unit
  | [] => pure ()
  | _ :: _ => do
    let _ ← PoolM.utf8 codeName
    return ()

def superRef (c : Register.Class) : PoolM UInt16 :=
  match c.super with
  | some name => PoolM.classRef name
  | none => pure 0

def outline (catalog : Register.Catalog) (handOver : HandOver) (c : Register.Class) :
    PoolM Outline := do
  let this ← PoolM.classRef c.name
  let super ← superRef c
  let interfaces ← c.interfaces.mapM PoolM.classRef
  let fields ← c.fields.mapM fun f => withinPool (.field f.id.name) (field f)
  let bodies ← c.methods.filterMapM (bodyWith catalog .all handOver)
  labelCode bodies
  return ⟨this, super, interfaces, fields, bodies⟩

def assembled (place : Placing) (bodies : List Body) : PoolM (List Bytes) := ExceptT.mk fun p =>
  ((assembleAll .all (place p bodies).1 #[] #[]).1, (place p bodies).2)

def conclusion (c : Register.Class) (this super : UInt16) (interfaces : List UInt16)
    (fields codes : List Bytes) :
    PoolM Bytes := do
  let methods ← (pairUp c.methods codes).mapM fun (m, code) => method m code
  return Bytes.ofUInt16 (classAccess c.access) ++ Bytes.ofUInt16 this ++ Bytes.ofUInt16 super ++
    count interfaces ++ interfaces.flatMap Bytes.ofUInt16 ++
    count fields ++ fields.flatten ++
    count methods ++ methods.flatten ++
    Bytes.ofUInt16 0

def completion (place : Placing) (c : Register.Class) (o : Outline) : PoolM Bytes := do
  let codes ← assembled place o.bodies
  conclusion c o.this o.super o.interfaces o.fields codes

/-- The class file with everything that saves space, except that literals are placed in a given way.
-/
def writePlacing (place : Placing) (catalog : Register.Catalog) (c : Register.Class)
    (texts : TextForm) (handOver : HandOver) : Except Fault Bytes :=
  let (result, pool) :=
    (outline catalog handOver c >>= completion place c).run (.empty .split texts)
  result.map fun rest => header ++ pool.encode ++ rest

def placeAll (handOver : HandOver) : Placing := fun p bodies => placeLiterals p bodies handOver

theorem finish_all (handOver : HandOver) (bodies : List Body) :
    (ExceptT.mk fun p => ((finish p bodies .all handOver).1, (finish p bodies .all handOver).2.2) :
      PoolM (List Bytes)) =
      labelCode bodies >>= fun _ => assembled (placeAll handOver) bodies := by
  funext p
  change _ = (labelCode bodies >>= fun _ => assembled (placeAll handOver) bodies).run p
  rw [ExceptT.run_bind_eq]
  cases bodies with
  | nil => rfl
  | cons b bodies =>
    rw [labelCode, ExceptT.run_bind_eq]
    change ((finish p (b :: bodies) .all handOver).1, (finish p (b :: bodies) .all handOver).2.2) =
      _
    simp only [finish, List.isEmpty_cons, Bool.false_eq_true, if_false]
    rcases (PoolM.utf8 codeName).run p with ⟨_ | _, q⟩ <;> rfl

section

variable (catalog handOver)

theorem codeAttributes_all (methods : List Register.Method) :
    codeAttributes catalog .all handOver methods =
      methods.filterMapM (bodyWith catalog .all handOver) >>= fun bodies =>
        labelCode bodies >>= fun _ => assembled (placeAll handOver) bodies := by
  simp only [← finish_all]
  rfl

theorem afterPool_eq (o : Options) (c : Register.Class) :
    afterPool catalog o handOver c =
      PoolM.classRef c.name >>= fun this =>
      superRef c >>= fun super =>
      c.interfaces.mapM PoolM.classRef >>= fun interfaces =>
      (c.fields.mapM fun f => withinPool (.field f.id.name) (field f)) >>= fun fields =>
      codeAttributes catalog o handOver c.methods >>=
        conclusion c this super interfaces fields := by
  unfold afterPool superRef
  cases c.super with
  | none => rfl
  | some name => rfl

theorem afterPool_all (c : Register.Class) :
    afterPool catalog .all handOver c = outline catalog handOver c >>=
      completion (placeAll handOver) c := by
  rw [afterPool_eq]
  simp only [outline, completion, codeAttributes_all, bind_assoc, pure_bind]

theorem writeWith_all (texts : TextForm) (c : Register.Class) :
    writeWith catalog .all c texts handOver =
      writePlacing (placeAll handOver) catalog c texts handOver := by
  rw [writeWith, afterPool_all]
  rfl

end

def textEntry (texts : TextForm) (text : String) : Entry := .utf8 (texts.encode text)

theorem textEntry_not_number (texts : TextForm) (text : String) :
    ¬ (textEntry texts text).isNumber = true :=
  Bool.false_ne_true

def methodTexts (texts : TextForm) (methods : List Register.Method) : List Entry :=
  methods.flatMap fun m => [textEntry texts m.id.name, textEntry texts m.id.descriptor]

def requestedFor (texts : TextForm) (row : Register.Method × Option Bytes) : List Entry :=
  [textEntry texts row.1.id.name] ++
    ([textEntry texts row.1.id.descriptor] ++ if row.2.isSome then [textEntry texts codeName]
      else [])

theorem asks_method (m : Register.Method) (code : Option Bytes)
    (name : (texts.encode m.id.name).length ≤ 65535)
    (descriptor : (texts.encode m.id.descriptor).length ≤ 65535) :
    PoolM.Asks texts (method m code) (requestedFor texts (m, code)) := by
  have label : (texts.encode codeName).length ≤ 65535 := by
    rw [length_encode_codeName]
    decide
  apply (PoolM.asks_utf8 name).bind
  intro n
  apply (PoolM.asks_utf8 descriptor).bind
  intro d
  cases code with
  | none => exact PoolM.asks_pure _
  | some content => exact (PoolM.asks_utf8 label).bind fun i => PoolM.asks_pure _

theorem short_of_method {m : Register.Method} {code : Option Bytes} {p later : Pool} {bytes : Bytes}
    (done : (method m code).run p = (.ok bytes, later)) :
    (p.texts.encode m.id.name).length ≤ 65535 ∧
    (p.texts.encode m.id.descriptor).length ≤ 65535 := by
  obtain ⟨n, middle, named, rest⟩ := ExceptT.run_bind_eq_ok.1 done
  obtain ⟨d, _, described, _⟩ := ExceptT.run_bind_eq_ok.1 rest
  have short := (PoolM.find?_of_utf8 described).1
  rw [(PoolM.utf8_eq_ok named).1.texts] at short
  exact ⟨(PoolM.find?_of_utf8 named).1, short⟩

theorem texts_of_method {m : Register.Method} {code : Option Bytes} {p later : Pool} {bytes : Bytes}
    (done : (method m code).run p = (.ok bytes, later)) : later.texts = p.texts := by
  obtain ⟨n, first, named, rest⟩ := ExceptT.run_bind_eq_ok.1 done
  obtain ⟨d, second, described, rest⟩ := ExceptT.run_bind_eq_ok.1 rest
  have upto := (PoolM.utf8_eq_ok described).1.texts.trans (PoolM.utf8_eq_ok named).1.texts
  cases code with
  | none =>
    obtain ⟨-, rfl⟩ := ExceptT.run_pure_eq_ok.1 rest
    exact upto
  | some content =>
    obtain ⟨label, third, labelled, last⟩ := ExceptT.run_bind_eq_ok.1 rest
    obtain ⟨-, rfl⟩ := ExceptT.run_pure_eq_ok.1 last
    exact (PoolM.utf8_eq_ok labelled).1.texts.trans upto

def ShortTexts (texts : TextForm) (methods : List Register.Method) : Prop :=
  ∀ m ∈ methods, (texts.encode m.id.name).length ≤ 65535 ∧
    (texts.encode m.id.descriptor).length ≤ 65535

section Methods

variable {methods : List Register.Method} {codes : List Bytes}

theorem map_fst_pairUp (methods : List Register.Method) (codes : List Bytes) :
    (pairUp methods codes).map Prod.fst = methods := by
  fun_induction pairUp methods codes with
  | case1 => rfl
  | case2 m ms c cs code found ih => rw [List.map_cons, ih]
  | case3 m ms codes _ ih => rw [List.map_cons, ih]

theorem snd_pairUp_nil {row : Register.Method × Option Bytes} (member : row ∈ pairUp methods []) :
    row.2 = none := by
  induction methods with
  | nil => cases member
  | cons m methods ih =>
    have unfolded : pairUp (m :: methods) [] = (m, none) :: pairUp methods [] := by
      cases code : m.code <;> simp [pairUp, code]
    rw [unfolded, List.mem_cons] at member
    rcases member with rfl | later
    · rfl
    · exact ih later

theorem asks_methods (short : ShortTexts texts methods) (codes : List Bytes) :
    PoolM.Asks texts ((pairUp methods codes).mapM fun (m, code) => method m code)
      ((pairUp methods codes).flatMap (requestedFor texts)) := by
  apply PoolM.asks_mapM
  rintro ⟨m, code⟩ member
  have listed : m ∈ methods := by
    rw [← map_fst_pairUp methods codes]
    exact List.mem_map.2 ⟨_, member, rfl⟩
  exact asks_method m code (short m listed).1 (short m listed).2

theorem short_of_methods {p later : Pool} {written : List Bytes}
    (done : ((pairUp methods codes).mapM fun (m, code) => method m code).run p =
      (.ok written, later)) :
    ShortTexts p.texts methods := by
  obtain ⟨whole, each⟩ :=
    ExceptT.run_mapM_eq_ok (fun s t : Pool => t.texts = s.texts) (fun _ => rfl)
    (fun _ _ _ first second => second.trans first) (fun _ _ _ _ ran => texts_of_method ran) done
  intro m member
  rw [← map_fst_pairUp methods codes] at member
  obtain ⟨⟨_, code⟩, listed, rfl⟩ := List.mem_map.1 member
  obtain ⟨i, at_i⟩ := List.getElem?_of_mem listed
  obtain ⟨bytes, _, before, after, ran, since⟩ := forall₂_getElem? each at_i
  rw [← whole, since, texts_of_method ran]
  exact short_of_method ran

theorem need_methods {p : Pool}
    (labelled : codes ≠ [] → p.find? (textEntry texts codeName) ≠ none) :
    p.need ((pairUp methods codes).flatMap (requestedFor texts)) =
      p.need (methodTexts texts methods) := by
  have by_row : methodTexts texts methods = (pairUp methods codes).flatMap fun row =>
      [textEntry texts row.1.id.name, textEntry texts row.1.id.descriptor] := by
    conv_lhs => rw [← map_fst_pairUp methods codes, methodTexts, List.flatMap_map]
  rw [by_row]
  apply Pool.need_congr
  intro e
  rw [and_congr_left_iff]
  intro absent
  rw [List.mem_flatMap, List.mem_flatMap]
  constructor
  · rintro ⟨row, member, asked⟩
    refine ⟨row, member, ?_⟩
    rw [requestedFor, List.mem_append, List.mem_append] at asked
    rcases asked with name | descriptor | label
    · exact List.mem_cons.2 (.inl (List.mem_singleton.1 name))
    · exact List.mem_cons_of_mem _ descriptor
    · -- A row with code has its label in the pool.
      cases code : row.2 with
      | none => simp [code] at label
      | some content =>
        have written : codes ≠ [] := by
          rintro rfl
          rw [snd_pairUp_nil member] at code
          cases code
        simp only [code, Option.isSome_some, if_true, List.mem_singleton] at label
        exact absurd (label ▸ absent) (labelled written)
  · rintro ⟨row, member, text⟩
    refine ⟨row, member, ?_⟩
    rw [requestedFor, ← List.append_assoc]
    exact List.mem_append_left _ text

end Methods

theorem labelled_of_outline {o : Outline} {p pool : Pool}
    (done : (outline catalog handOver c).run p = (.ok o, pool)) (some_code : o.bodies ≠ []) :
    pool.find? (textEntry pool.texts codeName) ≠ none := by
  obtain ⟨this, _, _, rest⟩ := ExceptT.run_bind_eq_ok.1 done
  obtain ⟨super, _, _, rest⟩ := ExceptT.run_bind_eq_ok.1 rest
  obtain ⟨interfaces, _, _, rest⟩ := ExceptT.run_bind_eq_ok.1 rest
  obtain ⟨fields, _, _, rest⟩ := ExceptT.run_bind_eq_ok.1 rest
  obtain ⟨bodies, before, _, rest⟩ := ExceptT.run_bind_eq_ok.1 rest
  obtain ⟨⟨⟩, after, labelled, last⟩ := ExceptT.run_bind_eq_ok.1 rest
  cases last
  cases bodies with
  | nil => exact absurd rfl some_code
  | cons b bodies =>
    obtain ⟨i, _, asked, last⟩ := ExceptT.run_bind_eq_ok.1 labelled
    cases last
    rw [textEntry, (PoolM.utf8_eq_ok asked).1.texts, (PoolM.find?_of_utf8 asked).2]
    exact Option.some_ne_none i

/-- With its literals placed a class is written, or the pool has no room left for the texts of
methods, or something is out of reach. -/
structure Outcome (result : Except Fault Bytes) (reached roomy : Prop) : Prop where
  written : reached → roomy → ∃ bytes, result = .ok bytes
  full : reached → ¬ roomy → ∃ f, result = .error f ∧ f.cause = .poolFull
  far : ¬ reached → ∃ f, result = .error f ∧ f.cause.isOutOfReach = true

theorem Outcome.map {result : Except Fault Bytes} {reached roomy : Prop}
    (outcome : Outcome result reached roomy) (f : Bytes → Bytes) :
    Outcome (result.map f) reached roomy := by
  constructor
  · intro reach room
    obtain ⟨bytes, rfl⟩ := outcome.written reach room
    exact ⟨f bytes, rfl⟩
  · intro reach no_room
    obtain ⟨fault, rfl, cause⟩ := outcome.full reach no_room
    exact ⟨fault, rfl, cause⟩
  · intro far
    obtain ⟨fault, rfl, cause⟩ := outcome.far far
    exact ⟨fault, rfl, cause⟩

section Completion

variable {place : Placing} {c : Register.Class} {o : Outline} {pool later : Pool}
  {bodies : List Body}

theorem completion_outcome (placed : place pool o.bodies = (bodies, later))
    (complete : ∀ b ∈ bodies, b.Complete) (short : ShortTexts later.texts c.methods)
    (labelled : bodies ≠ [] → later.find? (textEntry later.texts codeName) ≠ none) :
    Outcome ((completion place c o).run pool).1 (∀ b ∈ bodies, b.sizeJumps.Encodable)
      (later.need (methodTexts later.texts c.methods) ≤ later.space) := by
  have ran : (assembled place o.bodies).run pool =
      ((assembleAll .all bodies #[] #[]).1, later) := by
    unfold assembled
    rw [ExceptT.run_mk, placed]
  unfold completion
  rw [ExceptT.run_bind_eq, ran]
  rcases assembleAll_outcome bodies complete #[] #[] with ⟨reached, codes, done, all, length⟩ |
    ⟨far, f, done, failed, cause⟩
  · have asks := asks_methods short codes
    have known : codes ≠ [] → later.find? (textEntry later.texts codeName) ≠ none := by
      intro some_code
      apply labelled
      rintro rfl
      exact some_code (List.length_eq_zero_iff.1 length)
    rw [all]
    dsimp only
    rw [conclusion, ExceptT.run_bind_eq, ← need_methods known]
    constructor
    · intro _ room
      obtain ⟨methods, last, written, _⟩ := asks.granted later rfl room
      rw [written]
      exact ⟨_, rfl⟩
    · intro _ no_room
      obtain ⟨f, last, refused, cause⟩ := asks.refused later rfl (Nat.lt_of_not_le no_room)
      rw [refused]
      exact ⟨f, rfl, cause⟩
    · exact fun far => absurd reached far
  · rw [failed]
    constructor
    · exact fun reached => absurd reached far
    · exact fun reached => absurd reached far
    · exact fun _ => ⟨f, rfl, cause⟩

def leaveComputed : Placing := fun p bodies => (bodies, p)

theorem completion_leaveComputed {rest : Bytes}
    (done : (completion leaveComputed c o).run pool = (.ok rest, later))
    (labelled : o.bodies ≠ [] → pool.find? (textEntry pool.texts codeName) ≠ none) :
    (∀ b ∈ o.bodies, b.Complete) ∧ ShortTexts pool.texts c.methods ∧
      pool.need (methodTexts pool.texts c.methods) ≤ pool.space := by
  obtain ⟨codes, middle, attributes, written⟩ := ExceptT.run_bind_eq_ok.1 done
  obtain ⟨methods, last, each, _⟩ := ExceptT.run_bind_eq_ok.1 written
  obtain rfl : pool = middle := congrArg Prod.snd attributes
  have short := short_of_methods each
  have all : (assembleAll .all o.bodies #[] #[]).1 = .ok codes := congrArg Prod.fst attributes
  have complete := (complete_of_assembleAll (Prod.ext all rfl)).1
  refine ⟨complete, short, ?_⟩
  have outcome : Outcome ((completion leaveComputed c o).run pool).1 _ _ :=
    completion_outcome rfl complete short labelled
  rw [done] at outcome
  by_contra no_room
  by_cases reached : ∀ b ∈ o.bodies, b.sizeJumps.Encodable
  · obtain ⟨f, failed, _⟩ := outcome.full reached no_room
    cases failed
  · obtain ⟨f, failed, _⟩ := outcome.far reached
    cases failed

end Completion

theorem writePlacing_eq_ok {place : Placing} {bytes : Bytes}
    (done : writePlacing place catalog c texts handOver = .ok bytes) :
    ∃ o pool rest last, (outline catalog handOver c).run (.empty .split texts) = (.ok o, pool) ∧
      (completion place c o).run pool = (.ok rest, last) := by
  unfold writePlacing at done
  rcases ran : (outline catalog handOver c >>= completion place c).run (.empty .split texts) with
    ⟨result, last⟩
  rw [ran] at done
  obtain ⟨rest, rfl, _⟩ := Except.map_eq_ok.1 done
  obtain ⟨o, pool, outlined, completed⟩ := ExceptT.run_bind_eq_ok.1 ran
  exact ⟨o, pool, rest, last, outlined, completed⟩

theorem writePlacing_outcome {place : Placing} {o : Outline} {pool : Pool} {reached roomy : Prop}
    (outlined : (outline catalog handOver c).run (.empty .split texts) = (.ok o, pool))
    (outcome : Outcome ((completion place c o).run pool).1 reached roomy) :
    Outcome (writePlacing place catalog c texts handOver) reached roomy := by
  unfold writePlacing
  rw [ExceptT.run_bind_eq, outlined]
  exact outcome.map _

/-- Placing literals in the pool can make a class fail in two ways only. If it can be written with
all literals computed, then there is room for the texts of its methods, and with literals placed it
is written exactly when nothing is out of reach and there still is room. -/
theorem writeWith_all_outcome (catalog : Register.Catalog) (c : Register.Class) (texts : TextForm)
    (handOver : HandOver) (bytes : Bytes)
    (computed : writePlacing leaveComputed catalog c texts handOver = .ok bytes) :
    ∃ o pool bodies later, (outline catalog handOver c).run (.empty .split texts) = (.ok o, pool) ∧
      placeLiterals pool o.bodies handOver = (bodies, later) ∧
      pool.need (methodTexts pool.texts c.methods) ≤ pool.space ∧
      Outcome (writeWith catalog .all c texts handOver) (∀ b ∈ bodies, b.sizeJumps.Encodable)
        (pool.need (methodTexts pool.texts c.methods) ≤ later.space) := by
  obtain ⟨o, pool, rest, last, outlined, completed⟩ := writePlacing_eq_ok computed
  have labelled := labelled_of_outline outlined
  obtain ⟨complete, short, room⟩ := completion_leaveComputed completed labelled
  obtain ⟨relit, added⟩ := placeLiterals_spec pool o.bodies handOver
  have placed_complete := complete_placeLiterals pool handOver complete
  obtain ⟨⟨bodies, later⟩, placed⟩ : ∃ placed, placeLiterals pool o.bodies handOver = placed :=
    ⟨_, rfl⟩
  rw [placed] at relit added placed_complete
  refine ⟨o, pool, bodies, later, outlined, placed, room, ?_⟩
  have form : later.texts = pool.texts := added.texts_eq
  have others : ∀ e ∈ methodTexts pool.texts c.methods, ¬ e.isNumber = true := by
    intro e member
    obtain ⟨m, _, text⟩ := List.mem_flatMap.1 member
    simp only [List.mem_cons, List.not_mem_nil, or_false] at text
    rcases text with rfl | rfl
    · exact textEntry_not_number _ _
    · exact textEntry_not_number _ _
  rw [writeWith_all, ← added.need_eq others]
  apply writePlacing_outcome outlined
  rw [← form] at short ⊢
  apply completion_outcome (show placeAll handOver pool o.bodies = _ from placed)
    placed_complete short
  intro some_code
  rw [form, added.find?_eq (textEntry_not_number pool.texts codeName)]
  apply labelled
  rintro none
  rw [none] at relit
  cases relit
  exact some_code rfl

def literalCode : Register.Code := ⟨1, [], [.ofOpcode 20 0 1 [0, 100000], .ofOpcode 15 1 2 [0]]⟩

def literalMethod : Register.Method := ⟨⟨"A", "m", [], "I"⟩, 9, some literalCode⟩

def literalClass : Register.Class := ⟨"A", 1, none, [], [], [literalMethod]⟩

theorem literalCode_compiled (p : Pool) :
    ∃ b, (Register.compile {} literalMethod literalCode .all).run p = (.ok b, p) ∧
      b.lines.map Line.tag = List.range b.fresh ∧ (∀ l ∈ b.lines, l.insn.targets = []) ∧
      b.rows = [] := by
  have pool : ((Register.compile {} literalMethod literalCode .all).run p).2 = p := by cbv
  have shape : ((Register.compile {} literalMethod literalCode .all).run p).1.map (fun b =>
      (b.lines.map Line.tag, List.range b.fresh, b.lines.all fun l => l.insn.targets.isEmpty,
        b.rows)) =
      .ok (List.range 8, List.range 8, true, []) := by cbv
  obtain ⟨b, compiled, same⟩ := Except.map_eq_ok.1 shape
  simp only [Prod.mk.injEq] at same
  obtain ⟨tags, fresh, straight, rows⟩ := same
  refine ⟨b, Prod.ext compiled pool, tags.trans fresh.symm, ?_, rows⟩
  intro l member
  exact List.isEmpty_iff.1 (List.all_eq_true.1 straight l member)

theorem literalMethod_body (p : Pool) :
    ∃ b, (methodBody {} .all .asListed literalMethod literalCode).run p = (.ok b, p) ∧ b.Complete ∧
    b.sizeJumps.Encodable := by
  obtain ⟨first, compiled, tags, straight, rows⟩ := literalCode_compiled p
  have simplified := Body.rewrites_simplify (tagged_of_range tags) .all .asListed
  have rewrites := simplified.trans (Body.rewrites_assignSlots simplified.tagged .all)
  have straight' : ∀ l ∈ ((first.simplify .all).assignSlots .all).lines, l.insn.targets = [] := by
    intro l member
    by_contra jumps
    exact jumps (straight l (rewrites.straight l member jumps))
  refine ⟨(first.simplify .all).assignSlots .all, ?_, ⟨?_, ?_⟩, ?_⟩
  · apply ExceptT.run_bind_eq_ok.2
    refine ⟨first, p, ?_, rfl⟩
    rw [withinPool, ExceptT.run_mk, compiled]
    rfl
  · intro l member t target
    rw [straight' l member] at target
    cases target
  · exact Body.slotted_assignByUse _
  · exact Body.encodable_of_straight straight' (rewrites.rows.trans rows)

theorem literalClass_outline :
    ∃ o pool, (outline {} .asListed literalClass).run (.empty .split) = (.ok o, pool) ∧
      pool.texts = .modifiedUtf8 ∧ 65530 ≤ pool.space ∧ (∀ b ∈ o.bodies, b.Complete) ∧
      ∀ b ∈ o.bodies, b.sizeJumps.Encodable := by
  have named : ((PoolM.classRef "A").run (.empty .split)).1.map (fun _ => ()) = .ok () := by cbv
  have space : ((PoolM.classRef "A").run (.empty .split)).2.space = 65532 := by cbv
  obtain ⟨this, succeeded, _⟩ := Except.map_eq_ok.1 named
  obtain ⟨first, ran⟩ : ∃ first, ((PoolM.classRef "A").run (.empty .split)).2 = first := ⟨_, rfl⟩
  rw [ran] at space
  obtain ⟨b, bodied, complete, encodable⟩ := literalMethod_body first
  have label : PoolM.Asks first.texts (PoolM.utf8 codeName) [textEntry first.texts codeName] :=
    PoolM.asks_utf8 (by rw [length_encode_codeName]; decide)
  have little := first.need_le [textEntry first.texts codeName]
  rw [List.length_singleton] at little
  obtain ⟨i, pool, labelled, filled⟩ := label.granted first rfl (by omega)
  have left := filled.space
  have form : first.texts = .modifiedUtf8 := (PoolM.classRef_eq_ok (Prod.ext succeeded ran)).1.texts
  refine ⟨⟨this, 0, [], [], [b]⟩, pool, ?_, filled.texts.trans form, by omega, ?_, ?_⟩
  · apply ExceptT.run_bind_eq_ok.2
    refine ⟨this, first, Prod.ext succeeded ran, ?_⟩
    apply ExceptT.run_bind_eq_ok.2
    refine ⟨0, first, rfl, ?_⟩
    apply ExceptT.run_bind_eq_ok.2
    refine ⟨[], first, rfl, ?_⟩
    apply ExceptT.run_bind_eq_ok.2
    refine ⟨[], first, rfl, ?_⟩
    apply ExceptT.run_bind_eq_ok.2
    refine ⟨[b], first, ?_, ?_⟩
    · simp only [literalClass, List.filterMapM_cons, List.filterMapM_nil]
      apply ExceptT.run_bind_eq_ok.2
      refine ⟨some b, first, ?_, rfl⟩
      change (some <$> methodBody {} .all .asListed literalMethod literalCode).run first = _
      rw [map_eq_pure_bind]
      exact ExceptT.run_bind_eq_ok.2 ⟨b, first, bodied, rfl⟩
    · apply ExceptT.run_bind_eq_ok.2
      refine ⟨(), pool, ?_, rfl⟩
      exact ExceptT.run_bind_eq_ok.2 ⟨i, pool, labelled, rfl⟩
  · intro other member
    rw [List.mem_singleton.1 member]
    exact complete
  · intro other member
    rw [List.mem_singleton.1 member]
    exact encodable

theorem literalClass_computed :
    ∃ bytes, writePlacing leaveComputed {} literalClass .modifiedUtf8 .asListed = .ok bytes := by
  obtain ⟨o, pool, outlined, form, space, complete, encodable⟩ := literalClass_outline
  have short : ShortTexts pool.texts literalClass.methods := by
    intro m member
    rw [List.mem_singleton.1 member, form]
    decide
  have little := pool.need_le (methodTexts pool.texts literalClass.methods)
  have few : (methodTexts pool.texts literalClass.methods).length = 2 := rfl
  have outcome : Outcome (writePlacing leaveComputed {} literalClass .modifiedUtf8 .asListed) _ _ :=
    writePlacing_outcome outlined
      (completion_outcome rfl complete short (labelled_of_outline outlined))
  exact outcome.written encodable (by omega)

theorem literalClass_outcome :
    ∃ bytes, writePlacing leaveComputed {} literalClass .modifiedUtf8 .asListed = .ok bytes ∧
      ∃ o pool bodies later, (outline {} .asListed literalClass).run (.empty .split) =
        (.ok o, pool) ∧
        placeLiterals pool o.bodies = (bodies, later) ∧
        pool.need (methodTexts pool.texts literalClass.methods) ≤ pool.space ∧
        Outcome (writeWith {} .all literalClass) (∀ b ∈ bodies, b.sizeJumps.Encodable)
          (pool.need (methodTexts pool.texts literalClass.methods) ≤ later.space) := by
  obtain ⟨bytes, computed⟩ := literalClass_computed
  exact ⟨bytes, computed,
    writeWith_all_outcome {} literalClass .modifiedUtf8 .asListed bytes computed⟩

end Restack.ClassFile
