import Restack.Proofs.Pool.Arrangement
import Restack.Proofs.Pool.Calls

set_option autoImplicit false

namespace Restack.Pool

variable {i : UInt16} {p : Pool} {e : Entry}

/-- The answer to a call for one entry: where the entry is now, or none, only if it is new and does
not fit, and then the pool is as it was. -/
structure Answers (p : Pool) (e : Entry) (r : Option UInt16 × Pool) : Prop where
  fails_iff : r.1 = none ↔ p.find? e = none ∧ p.space < e.width
  unchanged : r.1 = none → r.2 = p
  found : ∀ i, r.1 = some i → r.2.find? e = some i

theorem answers_known (known : p.find? e = some i) : p.Answers e (some i, p) := by
  refine ⟨?_, fun _ => rfl, ?_⟩
  · simp [known]
  · rintro j same
    cases same
    exact known

theorem answers_insert (p : Pool) (e : Entry) (low : Bool) (absent : p.find? e = none) :
    p.Answers e (Call.indexOf (PoolM.insert e low) p) := by
  have done : ∀ i, (p.insert e low).1 = .ok i → (p.insert e low).2.find? e = some i :=
    fun i ok => find?_of_insert (Prod.ext ok rfl)
  change p.Answers e ((p.insert e low).1.toOption, (p.insert e low).2)
  by_cases full : p.space < e.width
  · have refused : p.insert e low = (fail .poolFull, p) := by rw [insert, dif_pos full]
    rw [refused]
    exact ⟨by simp [fail, Except.toOption, absent, full], fun _ => rfl, nofun⟩
  · have granted : ∃ i, (p.insert e low).1 = .ok i := by
      rw [insert, dif_neg full]
      exact ⟨_, rfl⟩
    obtain ⟨i, ok⟩ := granted
    rw [ok]
    refine ⟨by simp [Except.toOption, full], nofun, ?_⟩
    rintro j same
    cases same
    exact done i ok

theorem answers_request (p : Pool) (e : Entry) :
    p.Answers e (Call.indexOf (PoolM.request e) p) := by
  change p.Answers e ((p.request e).1.toOption, (p.request e).2)
  unfold request
  cases known : p.find? e with
  | some i => exact answers_known known
  | none => exact answers_insert p e e.prefersLow known

theorem answers_offer (p : Pool) (e : Entry) : p.Answers e (p.offer e) := by
  unfold offer
  cases known : p.find? e with
  | some i => exact answers_known known
  | none =>
    by_cases full : e.width > p.space
    · simp only [full, dif_pos]
      exact ⟨by simp [known, full], fun _ => rfl, fun _ same => by cases same⟩
    · simp only [full, dif_neg, not_false_eq_true]
      refine ⟨by simp [full], fun failed => (by cases failed), ?_⟩
      rintro i same
      cases same
      rw [(pushLow_added p e _).finds, if_pos rfl]

namespace Call

variable {call : Call}

/-- The entry that a call for one entry is about, in a pool that writes texts in a certain form. -/
def entry? (texts : TextForm) : Call → Option Entry
  | .utf8 text => some (.utf8 (texts.encode text))
  | .int value => some (.int value)
  | .float bits => some (.float bits)
  | .long value => some (.long value)
  | .double bits => some (.double bits)
  | .offer e | .insert e _ => some e
  | _ => none

def isOverlong (texts : TextForm) : Call → Bool
  | .utf8 text => 65535 < (texts.encode text).length
  | _ => false

theorem answers_ask (single : call.entry? p.texts = some e) (fits : call.isOverlong p.texts = false)
    (new : call.Allowed (fun p e => p.find? e = none) p) : p.Answers e (call.ask p) := by
  cases call with
  | utf8 text =>
    cases single
    have short : ¬ (p.texts.encode text).length > 65535 := of_decide_eq_false fits
    rw [ask, indexOf, PoolM.run_utf8, if_neg short]
    exact answers_request p _
  | int value => cases single; exact answers_request p _
  | float bits => cases single; exact answers_request p _
  | long value => cases single; exact answers_request p _
  | double bits => cases single; exact answers_request p _
  | offer e => cases single; exact answers_offer p e
  | insert e low => cases single; exact answers_insert p e low new
  | _ => cases single

theorem ask_overlong (overlong : call.isOverlong p.texts = true) : call.ask p = (none, p) := by
  cases call with
  | utf8 text =>
    have long : (p.texts.encode text).length > 65535 := of_decide_eq_true overlong
    rw [ask, indexOf, PoolM.run_utf8, if_pos long]
    rfl
  | _ => cases overlong

/-- An index leads to what the call was about. -/
def Leads (p : Pool) (i : UInt16) : Call → Prop
  | .utf8 text => p.HasText i text
  | .classRef name => p.HasClass i name
  | .stringRef text => ∃ t, p.entry? i = some (.string t) ∧ p.HasText t text
  | .nameType name descriptor => p.HasNameType i name descriptor
  | .field f => p.HasMember .field i f.owner f.name f.descriptor
  | .method m => p.HasMember .method i m.owner m.name m.descriptor
  | .interfaceMethod m => p.HasMember .interfaceMethod i m.owner m.name m.descriptor
  | .int value => p.entry? i = some (.int value)
  | .float bits => p.entry? i = some (.float bits)
  | .long value => p.entry? i = some (.long value)
  | .double bits => p.entry? i = some (.double bits)
  | .offer e | .insert e _ => p.entry? i = some e

theorem Leads.grow {q : Pool} (leads : call.Leads p i) (grows : p.Grows q) : call.Leads q i := by
  cases call with
  | utf8 text => exact HasText.grow leads grows
  | classRef name => exact HasClass.grow leads grows
  | stringRef text =>
    obtain ⟨t, at_index, at_text⟩ := leads
    exact ⟨t, grows.entries _ _ at_index, at_text.grow grows⟩
  | nameType name descriptor => exact HasNameType.grow leads grows
  | field f => exact HasMember.grow leads grows
  | method m => exact HasMember.grow leads grows
  | interfaceMethod m => exact HasMember.grow leads grows
  | _ => exact grows.entries _ _ leads

theorem Leads.exists_entry (leads : call.Leads p i) : ∃ e, p.entry? i = some e := by
  cases call with
  | classRef _ | stringRef _ =>
    obtain ⟨_, there, _⟩ := leads
    exact ⟨_, there⟩
  | nameType _ _ | field _ | method _ | interfaceMethod _ =>
    obtain ⟨_, _, there, _⟩ := leads
    exact ⟨_, there⟩
  | _ => exact ⟨_, leads⟩

theorem run_of_ask {m : PoolM UInt16} (answered : (indexOf m p).1 = some i) :
    m.run p = (.ok i, (indexOf m p).2) := by
  have ok : (m.run p).1 = .ok i := by
    change (m.run p).1.toOption = some i at answered
    cases result : (m.run p).1 with
    | error fault => rw [result] at answered; cases answered
    | ok j => rw [result] at answered; cases answered; rfl
  exact Prod.ext ok rfl

theorem leads_of_ask (answered : (call.ask p).1 = some i) : call.Leads (call.ask p).2 i := by
  cases call with
  | utf8 text => exact (PoolM.utf8_eq_ok (run_of_ask answered)).2
  | classRef name => exact (PoolM.classRef_eq_ok (run_of_ask answered)).2
  | stringRef text => exact (PoolM.stringRef_eq_ok (run_of_ask answered)).2
  | nameType name descriptor => exact (PoolM.nameType_eq_ok (run_of_ask answered)).2
  | field f => exact PoolM.member_eq_ok .field (run_of_ask answered)
  | method m => exact PoolM.member_eq_ok .method (run_of_ask answered)
  | interfaceMethod m => exact PoolM.member_eq_ok .interfaceMethod (run_of_ask answered)
  | int value => exact (request_eq_ok (run_of_ask answered)).2
  | float bits => exact (request_eq_ok (run_of_ask answered)).2
  | long value => exact (request_eq_ok (run_of_ask answered)).2
  | double bits => exact (request_eq_ok (run_of_ask answered)).2
  | offer e => exact (p.offer e).2.found e i ((answers_offer p e).found i answered)
  | insert e low => exact (insert_eq_ok (run_of_ask answered)).2

end Call

structure Event where
  call : Call
  before : Pool
  answer : Option UInt16
  after : Pool

def events (p : Pool) : List Call → List Event
  | [] => []
  | call :: calls => ⟨call, p, (call.ask p).1, (call.ask p).2⟩ :: events (call.ask p).2 calls

/-- Nothing is inserted that is there already. -/
def InsertsNew : Pool → List Call → Prop
  | _, [] => True
  | p, call :: calls =>
    (∀ e low, call = .insert e low → p.contains e = false) ∧ InsertsNew (call.ask p).2 calls

theorem contains_eq_false_iff (p : Pool) (e : Entry) : p.contains e = false ↔ p.find? e = none := by
  rw [contains, find?, Std.HashMap.contains_eq_isSome_getElem?, Option.isSome_eq_false_iff,
    Option.isNone_iff_eq_none]

theorem allAllowed_of_insertsNew (p : Pool) (calls : List Call) (new : InsertsNew p calls) :
    AllAllowed (fun p e => p.find? e = none) p calls := by
  induction calls generalizing p with
  | nil => trivial
  | cons call calls ih =>
    refine ⟨?_, ih _ new.2⟩
    cases call with
    | offer e => exact id
    | insert e low => exact (contains_eq_false_iff p e).1 (new.1 e low rfl)
    | _ => trivial

/-- What holds of an event in a row of calls from one pool to another. -/
structure Event.Sound (first last : Pool) (x : Event) : Prop where
  new : x.call.Allowed (fun p e => p.find? e = none) x.before
  answer_eq : x.answer = (x.call.ask x.before).1
  after_eq : x.after = (x.call.ask x.before).2
  from_first : Later first x.before
  to_last : Later x.after last

theorem events_sound (p : Pool) (calls : List Call)
    (new : AllAllowed (fun p e => p.find? e = none) p calls) :
    (∀ x ∈ p.events calls, x.Sound p (p.after calls)) ∧
      (p.events calls).Pairwise fun x y => Later x.after y.before := by
  induction calls generalizing p with
  | nil =>
    refine ⟨?_, .nil⟩
    intro x member
    cases member
  | cons call calls ih =>
    have step : Later p (call.ask p).2 := call.ask_adds (fun _ _ _ absent => absent) p new.1
    have others : Later (call.ask p).2 (p.after (call :: calls)) :=
      after_adds (fun _ _ _ absent => absent) (call.ask p).2 calls new.2
    obtain ⟨each, ordered⟩ := ih (call.ask p).2 new.2
    refine ⟨?_, List.pairwise_cons.2 ⟨fun y member => (each y member).from_first, ordered⟩⟩
    intro x member
    rcases List.mem_cons.1 member with rfl | other
    · exact ⟨new.1, rfl, rfl, .refl p, others⟩
    · have sound := each x other
      exact ⟨sound.new, sound.answer_eq, sound.after_eq, step.trans sound.from_first, sound.to_last⟩

namespace Event.Sound

variable {first last : Pool} {x y : Event}

section

variable (sound : x.Sound first last)
include sound

theorem find? (single : x.call.entry? first.texts = some e) (answered : x.answer = some i) :
    x.after.find? e = some i := by
  rw [sound.after_eq]
  rw [sound.answer_eq] at answered
  rw [← sound.from_first.texts_eq] at single
  cases overlong : x.call.isOverlong x.before.texts with
  | true =>
    rw [Call.ask_overlong overlong] at answered
    cases answered
  | false => exact (Call.answers_ask single overlong sound.new).found i answered

theorem leads (answered : x.answer = some i) : x.call.Leads x.after i := by
  rw [sound.after_eq]
  rw [sound.answer_eq] at answered
  exact Call.leads_of_ask answered

theorem again (sound' : y.Sound first last) (later : Later x.after y.before)
    (same : x.call = y.call) (answered : x.answer = some i) : y.answer = some i := by
  rw [sound'.answer_eq]
  rcases y.call.ask_cases with ⟨e, called⟩ | ⟨e, low, called⟩ | ⟨m, requests, asks⟩
  · have known := later.find? (sound.find? (e := e) (by rw [same, called]; rfl) answered)
    rw [called]
    exact congrArg Prod.fst (show y.before.offer e = (some i, y.before) by rw [offer, known])
  · have known := later.find? (sound.find? (e := e) (by rw [same, called]; rfl) answered)
    have absent := sound'.new
    rw [called] at absent
    cases absent.symm.trans known
  · rw [sound.answer_eq, same, asks] at answered
    rw [sound.after_eq, same, asks] at later
    rw [asks, Call.indexOf, requests.again (Call.run_of_ask answered) later]
    rfl

theorem eq_iff (sound' : y.Sound first last) {e' : Entry} {j : UInt16}
    (single : x.call.entry? first.texts = some e) (single' : y.call.entry? first.texts = some e')
    (answered : x.answer = some i) (answered' : y.answer = some j) : i = j ↔ e = e' := by
  have known := sound.to_last.find? (sound.find? single answered)
  have known' := sound'.to_last.find? (sound'.find? single' answered')
  constructor
  · rintro rfl
    have there := last.found e i known
    have there' := last.found e' i known'
    exact Option.some_inj.1 (there.symm.trans there')
  · rintro rfl
    exact Option.some_inj.1 (known.symm.trans known')

theorem fails_iff (single : x.call.entry? first.texts = some e) :
    (x.answer = none ↔
      (x.before.contains e = false ∧ x.before.space < e.width) ∨
      x.call.isOverlong first.texts = true) ∧
      (x.answer = none → x.after = x.before) := by
  rw [← sound.from_first.texts_eq] at single ⊢
  rw [sound.answer_eq, sound.after_eq, contains_eq_false_iff]
  cases overlong : x.call.isOverlong x.before.texts with
  | true =>
    rw [Call.ask_overlong overlong]
    simp
  | false =>
    have answers := Call.answers_ask single overlong sound.new
    exact ⟨by simp [answers.fails_iff], answers.unchanged⟩

end

end Event.Sound

/-- Over any calls, with nothing inserted twice: an index keeps its entry, which leads to what was
asked for; entries have indices of their own; calls for one entry each get the same index exactly if
they are for the same entry; free and taken indices make up all; such a call fails exactly if the
entry is new and does not fit or its text is too long, and then changes nothing. -/
theorem indices_sound (layout : Layout) (texts : TextForm) (calls : List Call)
    (new : InsertsNew (empty layout texts) calls) :
    let events := (empty layout texts).events calls
    let last := (empty layout texts).after calls
    (∀ x ∈ events, ∀ i, x.answer = some i → 1 ≤ i.toNat ∧ i.toNat ≤ 65534 ∧
      ∃ e, x.after.entry? i = some e ∧ last.entry? i = some e) ∧
    (∀ x ∈ events, ∀ i, x.answer = some i → x.call.Leads last i) ∧
    (∀ i j e e', last.entry? i = some e → last.entry? j = some e' → i ≠ j →
      e ≠ e' ∧ (i.toNat + e.width ≤ j.toNat ∨ j.toNat + e'.width ≤ i.toNat)) ∧
    (events.Pairwise fun x y => x.after.Grows y.after ∧
      (x.call = y.call → ∀ i, x.answer = some i → y.answer = some i) ∧
      ∀ e e' i j, x.call.entry? texts = some e → y.call.entry? texts = some e' → x.answer = some i →
      y.answer = some j →
        (i = j ↔ e = e')) ∧
    last.space + last.used = 65534 ∧
    ∀ x ∈ events, ∀ e, x.call.entry? texts = some e →
      (x.answer = none ↔ (x.before.contains e = false ∧ x.before.space < e.width) ∨
        x.call.isOverlong texts = true) ∧
      (x.answer = none → x.after = x.before) := by
  intro events last
  have allowed := allAllowed_of_insertsNew (empty layout texts) calls new
  obtain ⟨each, ordered⟩ := events_sound (empty layout texts) calls allowed
  have grown : Later (empty layout texts) last :=
    after_adds (fun _ _ _ absent => absent) (empty layout texts) calls allowed
  have indexed : last.Indexed := (indexed_empty layout texts).later grown
  obtain ⟨lows, highs, arranged, -⟩ := grown.arranged (fun _ => True) (fun _ _ _ => trivial)
    ⟨[], [], arranged_empty layout texts, fun _ _ => trivial⟩
  refine ⟨?_, ?_, ?_, ?_, ?_, fun x member e single => (each x member).fails_iff single⟩
  · intro x member i answered
    obtain ⟨e, there⟩ := ((each x member).leads answered).exists_entry
    have kept := (each x member).to_last.grows.entries i e there
    obtain ⟨positive, within⟩ := arranged.entry_bounds kept
    have width := e.width_pos
    simp only [limit] at within
    exact ⟨positive, by omega, e, there, kept⟩
  · intro x member i answered
    exact ((each x member).leads answered).grow (each x member).to_last.grows
  · intro i j e e' there there' apart
    constructor
    · rintro rfl
      exact apart (Option.some_inj.1 ((indexed i e there).symm.trans (indexed j e there')))
    · rcases Nat.lt_or_gt_of_ne (fun same => apart (UInt16.toNat_inj.1 same)) with before | behind
      · exact Or.inl (arranged.entry_apart there there' before)
      · exact Or.inr (arranged.entry_apart there' there behind)
  · refine List.Pairwise.imp_of_mem ?_ ordered
    intro x y in_x in_y later
    have sound := each x in_x
    have sound' := each y in_y
    have step : Later y.before y.after := by
      rw [sound'.after_eq]
      exact y.call.ask_adds (fun _ _ _ absent => absent) y.before sound'.new
    refine ⟨(later.trans step).grows, fun same i answered => sound.again sound' later same answered,
      ?_⟩
    exact fun e e' i j single single' answered answered' =>
      sound.eq_iff sound' single single' answered answered'
  · have all := arranged.space_add_used
    simp only [limit] at all
    omega

def sampleRequests : List Call :=
  [.insert (.long 7) false, .insert (.int 7) true, .field ⟨"A", "f", "I"⟩,
    .method ⟨"A", "f", ["I"], "V"⟩, .offer (.long 7), .field ⟨"A", "f", "I"⟩]

theorem sampleRequests_sound :
    InsertsNew (empty .split) sampleRequests ∧
    let events := (empty .split).events sampleRequests
    let last := (empty .split).after sampleRequests
    (∀ x ∈ events, ∀ i, x.answer = some i → 1 ≤ i.toNat ∧ i.toNat ≤ 65534 ∧
      ∃ e, x.after.entry? i = some e ∧ last.entry? i = some e) ∧
    (∀ x ∈ events, ∀ i, x.answer = some i → x.call.Leads last i) ∧
    (∀ i j e e', last.entry? i = some e → last.entry? j = some e' → i ≠ j →
      e ≠ e' ∧ (i.toNat + e.width ≤ j.toNat ∨ j.toNat + e'.width ≤ i.toNat)) ∧
    (events.Pairwise fun x y => x.after.Grows y.after ∧
      (x.call = y.call → ∀ i, x.answer = some i → y.answer = some i) ∧
      ∀ e e' i j, x.call.entry? .modifiedUtf8 = some e → y.call.entry? .modifiedUtf8 = some e' →
      x.answer = some i → y.answer = some j →
        (i = j ↔ e = e')) ∧
    last.space + last.used = 65534 ∧
    ∀ x ∈ events, ∀ e, x.call.entry? .modifiedUtf8 = some e →
      (x.answer = none ↔ (x.before.contains e = false ∧ x.before.space < e.width) ∨
        x.call.isOverlong .modifiedUtf8 = true) ∧
      (x.answer = none → x.after = x.before) := by
  have new : InsertsNew (empty .split) sampleRequests := by
    refine ⟨?_, ?_, nofun, nofun, nofun, nofun, trivial⟩
    · rintro e low ⟨⟩
      exact Std.HashMap.contains_empty
    · rintro e low ⟨⟩
      change ((∅ : Std.HashMap Entry UInt16).insert (.long 7) _).contains (.int 7) = false
      simp
  exact ⟨new, indices_sound .split .modifiedUtf8 sampleRequests new⟩

theorem length_encode_replicate (texts : TextForm) (n : Nat) :
    (texts.encode (String.ofList (List.replicate n 'a'))).length = n := by
  rw [texts.encode_of_plain, List.length_map, String.toList_ofList, List.length_replicate]
  intro c member
  rw [String.toList_ofList] at member
  rw [List.eq_of_mem_replicate member]
  decide

/-- Room is not all that counts: a text of 65536 bytes is refused by an empty pool. -/
theorem not_refused_only_without_room :
    ¬ ∀ layout texts calls, InsertsNew (empty layout texts) calls →
    ∀ x ∈ (empty layout texts).events calls, ∀ e,
      x.call.entry? texts = some e →
      (x.answer = none ↔ x.before.contains e = false ∧ x.before.space < e.width) := by
  intro characterized
  obtain ⟨text, long⟩ : ∃ text, 65535 < (TextForm.modifiedUtf8.encode text).length :=
    ⟨String.ofList (List.replicate 65536 'a'), by rw [length_encode_replicate]; decide⟩
  have overlong : (Call.utf8 text).isOverlong .modifiedUtf8 = true := decide_eq_true long
  have refused : ((Call.utf8 text).ask (empty .simple)).1 = none := by
    rw [Call.ask_overlong (show _ = true from overlong)]
  have event :=
    characterized .simple .modifiedUtf8 [.utf8 text] ⟨nofun, trivial⟩ _ List.mem_cons_self _ rfl
  have full : (empty .simple).space < (Entry.utf8 (TextForm.modifiedUtf8.encode text)).width :=
    (event.1 refused).2
  have room : (empty .simple).space = 65534 := rfl
  have := Entry.width_le (.utf8 (TextForm.modifiedUtf8.encode text))
  omega

end Restack.Pool
