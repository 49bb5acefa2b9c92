import Codemod.Proofs.Source.InCode

/-! The two edits of attributes, dropping one and turning one into an element, as edits of a text: where they
stand, and when they leave what is code and what is literal as it was. -/
namespace Codemod.Source
open Text

/-! ## The edits -/

/-- What is carried out to drop the attribute `attr` of the elements called `tag`. -/
def removals (text tag attr : List Char) : List Edit :=
  (openingTags text tag).flatMap fun t => (t.attributes.filter (·.name == attr)).map fun a =>
    ⟨(attributeRange text t a).1, a.stop, []⟩

/-- The attribute `new` that holds an element of the component. -/
def heldElement (new component : List Char) : List Char :=
  new ++ "=\x7b<".toList ++ component ++ " />\x7d".toList

/-- What is carried out to write `old` with a component as `new` with an element. -/
def conversions (text tag old new : List Char) : List Edit :=
  (openingTags text tag).flatMap fun t =>
    if old != new && t.attributes.any (·.name == new) then []
    else (t.attributes.filter (·.name == old)).filterMap fun a =>
      (namedComponent? a).map fun component => ⟨a.start, a.stop, heldElement new component⟩

theorem AttributeName.ne_nil {name : List Char} (h : AttributeName name) : name ≠ [] := by
  obtain ⟨c, tail, rfl, -⟩ := h.exists_cons
  exact List.cons_ne_nil c tail

theorem removeAttribute_eq {tag attr : List Char} (htag : TagName tag) (hattr : AttributeName attr)
    (text : List Char) : removeAttribute text tag attr = splice text (removals text tag attr) := by
  have hempty : (tag.isEmpty || attr.isEmpty) = false := by simp [htag.ne_nil, hattr.ne_nil]
  rw [removeAttribute, hempty]
  rfl

theorem convertAttribute_eq {tag old new : List Char} (htag : TagName tag) (hold : AttributeName old)
    (hnew : AttributeName new) (text : List Char) :
    convertAttribute text tag old new = splice text (conversions text tag old new) := by
  have hempty : (tag.isEmpty || old.isEmpty || new.isEmpty) = false := by
    simp [htag.ne_nil, hold.ne_nil, hnew.ne_nil]
  rw [convertAttribute, hempty]
  rfl

variable {text tag attr old new : List Char} {e : Edit}

theorem mem_removals_iff : e ∈ removals text tag attr ↔ ∃ t ∈ openingTags text tag, ∃ a ∈ t.attributes,
    a.name = attr ∧ e = ⟨(attributeRange text t a).1, a.stop, []⟩ := by
  simp only [removals, List.mem_flatMap, List.mem_map, List.mem_filter, beq_iff_eq]
  constructor
  · rintro ⟨t, ht, a, ⟨ha, hname⟩, rfl⟩
    exact ⟨t, ht, a, ha, hname, rfl⟩
  · rintro ⟨t, ht, a, ha, hname, rfl⟩
    exact ⟨t, ht, a, ⟨ha, hname⟩, rfl⟩

/-- The tag takes the attribute `new` in place of `old`. -/
def OpeningTag.takes (t : OpeningTag) (old new : List Char) : Prop :=
  old = new ∨ ∀ b ∈ t.attributes, b.name ≠ new

theorem mem_conversions_iff : e ∈ conversions text tag old new ↔ ∃ t ∈ openingTags text tag,
    t.takes old new ∧ ∃ a ∈ t.attributes, a.name = old ∧ ∃ component, namedComponent? a = some component ∧
      e = ⟨a.start, a.stop, heldElement new component⟩ := by
  have htakes (t : OpeningTag) : (old != new && t.attributes.any (·.name == new)) = false ↔
      t.takes old new := by
    simp only [OpeningTag.takes, Bool.and_eq_false_iff, bne_eq_false_iff_eq, List.any_eq_false, beq_iff_eq]
  simp only [conversions, List.mem_flatMap]
  refine exists_congr fun t => and_congr_right fun _ => ?_
  rw [← htakes]
  split
  · next h => simp [h]
  · next h =>
    simp only [List.mem_filterMap, List.mem_filter, beq_iff_eq, Option.map_eq_some_iff]
    constructor
    · rintro ⟨a, ⟨ha, hname⟩, component, hcomponent, rfl⟩
      exact ⟨by simpa using h, a, ha, hname, component, hcomponent, rfl⟩
    · rintro ⟨-, a, ha, hname, component, hcomponent, rfl⟩
      exact ⟨a, ⟨ha, hname⟩, component, hcomponent, rfl⟩

/-! ## Where an attribute stands -/

/-- An attribute of an opening tag of the text, with the blanks in front of it: what stands in front of these
and what follows the attribute. -/
structure AttributeAt (text : List Char) (t : OpeningTag) (a : Attribute) (lead body behind : List Char) :
    Prop where
  text_eq : text = lead ++ (body ++ behind)
  item : IsItem lead.length body behind ⟨lead.length, lead.length + body.length, some a⟩
  nameEnd : t.nameEnd ≤ lead.length
  ends : ∃ c ∈ lead.getLast?, EndsItem c (body ++ behind)
  later : ∃ items, TagBody (lead.length + body.length) behind items t.stop
  code : (∀ b ∈ t.attributes, b.closes = true) → framesAfter [] lead (body ++ behind) = some []

theorem TagAt.exists_attributeAt {t : OpeningTag} {front rest : List Char} {items : List TagItem}
    (h : TagAt text tag t front rest items) (htag : TagName tag) {item : TagItem} (hitem : item ∈ items)
    {a : Attribute} (ha : item.attr = some a) :
    ∃ lead body behind, AttributeAt text t a lead body behind ∧ item.lead = lead.length := by
  obtain ⟨before, later, rfl⟩ := List.append_of_mem hitem
  obtain ⟨lead, body, behind, ⟨htext, hbody, hname, hends⟩, hlater, hcode⟩ := h.exists_item htag rfl
  have hstop := hbody.stop_eq
  have hmk := hbody.eq_mk
  rw [hmk, ha] at hbody
  refine ⟨lead, body, behind, ⟨htext, hbody, hname, hends, ⟨later, hstop ▸ hlater⟩, fun hcloses => ?_⟩,
    by rw [hmk]⟩
  refine hcode fun other hother b hb => hcloses b ?_
  rw [h.attributes]
  exact List.mem_filterMap.2 ⟨other, by simp [hother], hb⟩

theorem exists_attributeAt (htag : TagName tag) {t : OpeningTag} (ht : t ∈ openingTags text tag)
    {a : Attribute} (ha : a ∈ t.attributes) : ∃ lead body behind, AttributeAt text t a lead body behind := by
  obtain ⟨front, rest, items, hat⟩ := exists_tagAt ht
  rw [hat.attributes] at ha
  obtain ⟨item, hitem, hattr⟩ := List.mem_filterMap.1 ha
  obtain ⟨lead, body, behind, hattribute, -⟩ := hat.exists_attributeAt htag hitem hattr
  exact ⟨lead, body, behind, hattribute⟩

/-- An attribute with the blanks in front of it: its name, and what comes behind that. -/
theorem IsItem.exists_name {pos stop : Nat} {body rest : List Char} {a : Attribute}
    (h : IsItem pos body rest ⟨pos, stop, some a⟩) : ∃ gap more, body = gap ++ (a.name ++ more) ∧
      (∀ c ∈ gap, isBlank c = true) ∧ AttributeName a.name ∧ a.start = pos + gap.length ∧
      a.stop = pos + body.length := by
  cases h with
  | @flag gap name _ hgap hname _ _ => exact ⟨gap, [], by simp, hgap, hname, rfl, rfl⟩
  | @quoted gap name label value _ quote hgap hlabel _ _ =>
    obtain ⟨hname, inner, inner', rfl, -⟩ := hlabel
    rw [List.append_assoc name]
    exact ⟨gap, _, rfl, hgap, hname, rfl, rfl⟩
  | @braced gap name label value _ hgap hlabel _ =>
    obtain ⟨hname, inner, inner', rfl, -⟩ := hlabel
    rw [List.append_assoc name]
    exact ⟨gap, _, rfl, hgap, hname, rfl, rfl⟩

/-- An attribute whose value names a component, part by part. -/
theorem IsItem.exists_component {pos stop : Nat} {body rest component : List Char} {a : Attribute}
    (h : IsItem pos body rest ⟨pos, stop, some a⟩) (hcomponent : namedComponent? a = some component) :
    ∃ gap label left right, body = gap ++ (label ++ '{' :: ((left ++ (component ++ right)) ++ ['}'])) ∧
      (∀ c ∈ gap, isBlank c = true) ∧ IsLabel a.name label ∧ (∀ c ∈ left, isBlank c = true) ∧
      (∀ c ∈ right, isBlank c = true) ∧ isMemberExpression component = true ∧
      a.value = some ('{' :: ((left ++ (component ++ right)) ++ ['}'])) ∧ a.start = pos + gap.length ∧
      a.stop = pos + body.length ∧ bracketExtent? '{' (((left ++ (component ++ right)) ++ ['}']) ++ rest) =
        some ((left ++ (component ++ right)) ++ ['}']).length := by
  cases h with
  | flag => cases hcomponent
  | @quoted gap name label value _ quote _ _ hquote _ =>
    have hbrace : quote ≠ '{' := by
      rintro rfl
      cases hquote
    simp [namedComponent?, hbrace] at hcomponent
  | @braced gap name label inner _ hgap hlabel hinner =>
    obtain ⟨hmember, rfl⟩ := (Option.ite_none_right_eq_some.1 hcomponent).imp_right Option.some_inj.1
    obtain ⟨most, rfl⟩ : ∃ most, inner = most ++ ['}'] :=
      List.getLast?_eq_some_iff.1 (getLast?_of_bracketExtent? hinner)
    rw [List.dropLast_concat] at hmember ⊢
    obtain ⟨left, right, hsplit, hleft, hright⟩ := exists_trim most
    exact ⟨gap, label, left, right, by rw [← hsplit], hgap, hlabel, hleft, hright, hmember,
      by rw [← hsplit], rfl, rfl, by rwa [← hsplit]⟩

namespace AttributeAt

variable {t : OpeningTag} {a : Attribute} {lead body behind : List Char}

theorem stop_eq (h : AttributeAt text t a lead body behind) : a.stop = lead.length + body.length := by
  obtain ⟨-, -, -, -, -, -, hstop⟩ := h.item.exists_name
  exact hstop

theorem isBlank_last (h : AttributeAt text t a lead body behind) : ∀ c ∈ lead.getLast?, isBlank c = false := by
  obtain ⟨d, hd, hends⟩ := h.ends
  intro c hc
  obtain rfl : d = c := Option.some_inj.1 (hd.symm.trans hc)
  rcases hends with hquote | rfl | ⟨hchar, -⟩
  · exact isBlank_eq_false_of_isQuote hquote
  · decide
  · by_contra hblank
    rw [isAttributeChar_of_isBlank (by simpa using hblank)] at hchar
    cases hchar

/-- The range that is cut is the attribute with the blanks in front of it. -/
theorem attributeRange_eq (h : AttributeAt text t a lead body behind) :
    attributeRange text t a = (lead.length, lead.length + body.length) := by
  obtain ⟨gap, more, hbody, hgap, -, hstart, hstop⟩ := h.item.exists_name
  have hname := h.nameEnd
  have hbetween : between t.nameEnd a.start text = lead.drop t.nameEnd ++ gap := by
    rw [between, h.text_eq, hbody, hstart, List.drop_append_of_le_length hname]
    rw [List.append_assoc gap, ← List.append_assoc (lead.drop _)]
    refine List.take_left' ?_
    rw [List.length_append, List.length_drop]
    omega
  have hblanks : ((lead.drop t.nameEnd ++ gap).reverse.takeWhile isBlank).length = gap.length := by
    rw [List.reverse_append, takeWhile_span, List.length_reverse]
    · exact fun c hc => hgap c (List.mem_reverse.1 hc)
    · intro c hc
      rw [List.head?_reverse] at hc
      by_cases hdrop : lead.drop t.nameEnd = []
      · rw [hdrop] at hc
        cases hc
      · rw [← getLast?_append_of_ne_nil (lead.take t.nameEnd) hdrop, List.take_append_drop] at hc
        exact h.isBlank_last c hc
  have heq : attributeRange text t a = (a.start -
    ((between t.nameEnd a.start text).reverse.takeWhile isBlank).length, a.stop) := rfl
  rw [heq, hbetween, hblanks, hstop, hstart, Nat.add_sub_cancel]

theorem covered_ne_nil (h : AttributeAt text t a lead body behind) : body ≠ [] := by
  obtain ⟨gap, more, rfl, -, hname, -⟩ := h.item.exists_name
  simp [hname.ne_nil]

end AttributeAt

/-! ## Attributes in code -/

theorem EndsItem.notMem {c : Char} {rest : List Char} (h : EndsItem c rest) : c ∉ ['/', '*', '`', '\\'] := by
  rcases h with hquote | rfl | ⟨hchar, -⟩
  · rcases eq_of_isQuote hquote with rfl | rfl <;> decide
  · decide
  · intro hm
    have hnone : ∀ d ∈ ['/', '*', '`', '\\'], isAttributeChar d = false :=
      List.all_iff_forall_prop.1 (by decide)
    rw [hnone c hm] at hchar
    cases hchar

theorem isBlank_notMem {c : Char} (h : isBlank c = true) : c ∉ ['/', '*', '`', '\\'] := by
  intro hm
  have hnone : ∀ d ∈ ['/', '*', '`', '\\'], isBlank d = false :=
    List.all_iff_forall_prop.1 (by decide)
  rw [hnone c hm] at h
  cases h

theorem IsItem.opens {pos : Nat} {body rest : List Char} {item : TagItem} (h : IsItem pos body rest item) :
    ∃ c cs, body = c :: cs ∧ (isTagChar c = true ∨ c = '{') := by
  have hgap {gap cs : List Char} (hgap : ∀ c ∈ gap, isBlank c = true)
      (hcs : ∃ d ds, cs = d :: ds ∧ (isTagChar d = true ∨ d = '{')) :
      ∃ d ds, gap ++ cs = d :: ds ∧ (isTagChar d = true ∨ d = '{') := by
    cases gap with
    | nil => exact hcs
    | cons d gap => exact ⟨d, gap ++ cs, rfl, .inl (isTagChar_of_isBlank (hgap d (by simp)))⟩
  have hname {name : List Char} (h : AttributeName name) (more : List Char) :
      ∃ d ds, name ++ more = d :: ds ∧ (isTagChar d = true ∨ d = '{') := by
    obtain ⟨d, tail, rfl, hd, -⟩ := h.exists_cons
    exact ⟨d, tail ++ more, rfl, .inl (isTagChar_of_isAttributeChar (isAttributeChar_of_isNameStart hd))⟩
  cases h with
  | spread hblank _ => exact hgap hblank ⟨'{', _, rfl, .inr rfl⟩
  | @flag gap name _ hblank hn _ _ =>
    have hflag := hname hn []
    rw [List.append_nil] at hflag
    exact hgap hblank hflag
  | quoted hblank hlabel _ _ =>
    obtain ⟨hn, inner, inner', rfl, -⟩ := hlabel
    rw [List.append_assoc]
    exact hgap hblank (hname hn _)
  | braced hblank hlabel _ =>
    obtain ⟨hn, inner, inner', rfl, -⟩ := hlabel
    rw [List.append_assoc]
    exact hgap hblank (hname hn _)

/-- A tag goes on with a character that opens no literal and no comment. -/
theorem TagBody.opens {pos stop : Nat} {cs : List Char} {items : List TagItem} (h : TagBody pos cs items stop) :
    ∃ c rest, cs = c :: rest ∧ inertFrames c rest = [] := by
  have hopens {c : Char} (hc : isTagChar c = true ∨ c = '{') (rest : List Char) :
      inertFrames c rest = [] := by
    rcases hc with hc | rfl
    · exact inertFrames_of_isTagChar hc rest
    · rfl
  cases h with
  | @close _ gap finish rest hgap hfinish =>
    cases gap with
    | nil =>
      rcases hfinish with rfl | rfl
      · exact ⟨'>', rest, rfl, rfl⟩
      · exact ⟨'/', '>' :: rest, rfl, rfl⟩
    | cons c gap => exact ⟨c, _, rfl, hopens (.inl (isTagChar_of_isBlank (hgap c (by simp)))) _⟩
  | @item _ _ body rest _ _ hfirst _ =>
    obtain ⟨c, cs, rfl, hc⟩ := hfirst.opens
    exact ⟨c, _, rfl, hopens hc _⟩

variable {t : OpeningTag} {a : Attribute} {lead body behind : List Char}

/-- An attribute that is cut out stands in code when the quoted values of its tag close. -/
theorem AttributeAt.codeEdit_removal (h : AttributeAt text t a lead body behind) (ha : a ∈ t.attributes)
    (hcloses : ∀ b ∈ t.attributes, b.closes = true) (start stop : Nat) :
    CodeEdit lead body behind ⟨start, stop, []⟩ where
  code := h.code hcloses
  ends c hc := by
    obtain ⟨d, hd, hends⟩ := h.ends
    obtain rfl : d = c := Option.some_inj.1 (hd.symm.trans hc)
    exact hends.notMem
  ne_nil := h.covered_ne_nil
  neutral := h.item.neutral fun b hb => by
    cases hb
    exact hcloses a ha
  last hslash := (h.item.endsItem _ hslash).notMem (by simp)
  written rest := neutral_nil rest
  calm _ _ c hc := by cases hc
  opens := by
    obtain ⟨items, hlater⟩ := h.later
    exact hlater.opens

/-! ## Elements as values -/

theorem IsLabel.getLast? {name label : List Char} (h : IsLabel name label) : label.getLast? ≠ some '$' := by
  obtain ⟨-, gap, gap', rfl, -, hgap'⟩ := h
  intro hlast
  rw [List.append_cons, ← List.append_assoc, List.getLast?_append] at hlast
  rcases Option.or_eq_some_iff.1 hlast with hlast | ⟨-, hlast⟩
  · have hblank := hgap' '$' (List.mem_of_getLast? hlast)
    revert hblank
    decide
  · rw [← List.append_assoc, List.getLast?_concat] at hlast
    cases hlast

theorem IsLabel.head? {name label : List Char} (h : IsLabel name label) :
    ∃ c ∈ label.head?, isNameStart c = true := by
  obtain ⟨hname, gap, gap', rfl, -⟩ := h
  obtain ⟨c, tail, rfl, hc, -⟩ := hname.exists_cons
  exact ⟨c, rfl, hc⟩

theorem IsLabel.isQuiet {name label : List Char} (h : IsLabel name label) (hfeed : '\n' ∉ label) :
    ∀ c ∈ label, isQuiet c = true := by
  intro c hc
  rcases Bool.or_eq_true_iff.1 (h.isTagChar c hc) with hc' | hc'
  · rcases Bool.or_eq_true_iff.1 hc' with hblank | hchar
    · exact isQuiet_of_isBlank hblank fun heq => hfeed (heq ▸ hc)
    · exact isQuiet_of_isAttributeChar hchar
  · simp [Source.isQuiet, hc']

/-- An attribute that names a component on one line is mute. -/
theorem mute_component {name label left right component : List Char} (hlabel : IsLabel name label)
    (hleft : ∀ c ∈ left, isBlank c = true) (hright : ∀ c ∈ right, isBlank c = true)
    (hcomponent : isMemberExpression component = true)
    (hfeed : '\n' ∉ label ++ '{' :: ((left ++ (component ++ right)) ++ ['}'])) (rest : List Char) :
    Mute (label ++ '{' :: ((left ++ (component ++ right)) ++ ['}'])) rest := by
  have hquiet : ∀ c ∈ left ++ (component ++ right), isQuiet c = true := by
    intro c hc
    have hline : c ≠ '\n' := by
      rintro rfl
      exact hfeed (by simp only [List.mem_append, List.mem_cons] at hc ⊢; tauto)
    simp only [List.mem_append] at hc
    rcases hc with hc | hc | hc
    · exact isQuiet_of_isBlank (hleft c hc) hline
    · exact isQuiet_of_isAttributeChar (isAttributeChar_of_isMemberExpression hcomponent c hc)
    · exact isQuiet_of_isBlank (hright c hc) hline
  refine mute_braced hlabel.head? (hlabel.isQuiet fun hm => hfeed (by simp [hm])) hlabel.getLast?
    (fun quote hquote c hc => calm_of_isQuiet hquote (hquiet c hc)) (fun hframes hhead => ?_) rest
  exact passes_of_isQuiet hframes hhead hquiet fun _ => by simp

/-- An attribute that holds an element is mute. -/
theorem mute_heldElement {new component : List Char} (hnew : AttributeName new)
    (hcomponent : isMemberExpression component = true) (rest : List Char) :
    Mute (heldElement new component) rest := by
  have heq : heldElement new component = (new ++ ['=']) ++
      '{' :: (('<' :: (component ++ [' '])) ++ ['/', '>'] ++ ['}']) := by
    simp [heldElement]
  have hopen : ∀ c ∈ '<' :: (component ++ [' ']), isQuiet c = true := by
    intro c hc
    simp only [List.mem_cons, List.mem_append, List.not_mem_nil, or_false] at hc
    rcases hc with rfl | hc | rfl
    · decide
    · exact isQuiet_of_isAttributeChar (isAttributeChar_of_isMemberExpression hcomponent c hc)
    · decide
  rw [heq]
  refine mute_braced ?_ ?_ (by simp) (fun quote hquote c hc => ?_) (fun {frames rest} hframes hhead => ?_) rest
  · obtain ⟨c, hc, hstart⟩ := hnew.start
    obtain ⟨tail, rfl⟩ := List.head?_eq_some_iff.1 hc
    exact ⟨c, rfl, hstart⟩
  · intro c hc
    simp only [List.mem_append, List.mem_cons, List.not_mem_nil, or_false] at hc
    rcases hc with hc | rfl
    · exact isQuiet_of_isAttributeChar (hnew.chars c hc)
    · decide
  · rcases List.mem_append.1 hc with hc | hc
    · exact calm_of_isQuiet hquote (hopen c hc)
    · simp only [List.mem_cons, List.not_mem_nil, or_false] at hc
      rcases eq_of_isQuote hquote with rfl | rfl <;>
        rcases hc with rfl | rfl <;> simp [Calm]
  · have hslash : Passes frames frames ['/'] ('>' :: '}' :: rest) :=
      passes_char (step_self hframes hhead (by decide) (by decide) (by simp) rfl (.inl (by decide)))
        (.inr (by decide))
    have hgreater : Passes frames frames ['>'] ('}' :: rest) :=
      passes_of_isQuiet hframes hhead (List.all_iff_forall_prop.1 (by decide)) (by simp)
    refine (passes_of_isQuiet hframes hhead hopen ?_).append (hslash.append hgreater)
    intro hlast
    rw [← List.cons_append, List.getLast?_concat] at hlast
    cases hlast

/-- An attribute that is turned into an element, without the blanks in front of it, where it stands. It is in
code when the quoted values of its tag close, and a mute piece when it is on one line. -/
structure Conversion (text : List Char) (t : OpeningTag) (a : Attribute) (front covered behind : List Char)
    (e : Edit) : Prop where
  site : Site text e front covered behind
  item : IsItem front.length covered behind ⟨front.length, front.length + covered.length, some a⟩
  start : a.start = front.length
  behind_name : ∀ c ∈ front.getLast?, isAttributeChar c = false
  last : covered.getLast? = some '}'
  code : (∀ b ∈ t.attributes, b.closes = true) → CodeEdit front covered behind e
  mute : '\n' ∉ covered → MuteEdit front covered behind e

/-- In front of the name of an attribute stands a blank, a quote or a brace. -/
theorem AttributeAt.ends_gap {gap covered : List Char} (h : AttributeAt text t a lead (gap ++ covered) behind)
    (hgap : ∀ c ∈ gap, isBlank c = true) (hname : ∃ b ∈ covered.head?, isNameStart b = true) :
    ∀ c ∈ (lead ++ gap).getLast?, isAttributeChar c = false ∧ c ∉ ['/', '*', '`', '\\'] := by
  intro c hc
  by_cases hnil : gap = []
  · subst hnil
    rw [List.append_nil] at hc
    obtain ⟨d, hd, hends⟩ := h.ends
    obtain rfl : d = c := Option.some_inj.1 (hd.symm.trans hc)
    refine ⟨?_, hends.notMem⟩
    rcases hends with hquote | rfl | ⟨-, hnext⟩
    · rcases eq_of_isQuote hquote with rfl | rfl <;> decide
    · decide
    · obtain ⟨b, hb, hstart⟩ := hname
      obtain ⟨tail, rfl⟩ := List.head?_eq_some_iff.1 hb
      have hchar := hnext b rfl
      rw [isAttributeChar_of_isNameStart hstart] at hchar
      cases hchar
  · rw [getLast?_append_of_ne_nil lead hnil] at hc
    have hb := hgap c (List.mem_of_getLast? hc)
    exact ⟨isAttributeChar_of_isBlank hb, isBlank_notMem hb⟩

theorem AttributeAt.exists_conversion (h : AttributeAt text t a lead body behind) {component : List Char}
    (hcomponent : namedComponent? a = some component) (hnew : AttributeName new) :
    ∃ front covered, Conversion text t a front covered behind
      ⟨a.start, a.stop, heldElement new component⟩ := by
  obtain ⟨gap, label, left, right, rfl, hgap, hlabel, hleft, hright, hmember, hvalue, hstart, hstop,
    hextent⟩ := h.item.exists_component hcomponent
  generalize hcovered : label ++ '{' :: ((left ++ (component ++ right)) ++ ['}']) = covered at *
  have hmute := mute_heldElement hnew hmember
  have hblank := neutral_of_isTagChar fun c hc => isTagChar_of_isBlank (hgap c hc)
  have hlast : covered.getLast? = some '}' := by
    rw [← hcovered, ← List.cons_append, ← List.append_assoc, List.getLast?_concat]
  have hne : covered ≠ [] := by
    rintro rfl
    cases hlast
  have hstart' : a.start = (lead ++ gap).length := by rw [hstart, List.length_append]
  have hstop' : a.stop = a.start + covered.length := by
    rw [hstop, hstart, List.length_append]
    omega
  have hends := h.ends_gap hgap (by
    obtain ⟨b, hb, hname⟩ := hlabel.head?
    obtain ⟨tail, rfl⟩ := List.head?_eq_some_iff.1 hb
    exact ⟨b, by rw [← hcovered]; rfl, hname⟩)
  refine ⟨lead ++ gap, covered, ⟨?_, hstart', hstop'⟩, ?_, hstart', fun c hc => (hends c hc).1, hlast,
    fun hcloses => ⟨?_, fun c hc => (hends c hc).2, hne, ?_, by simp [hlast], fun rest => ?_,
      fun quote hquote => (hmute []).calm quote hquote, ?_⟩, fun hfeed => ⟨?_, hmute behind⟩⟩
  · rw [h.text_eq]
    simp
  · have hitem := @IsItem.braced (lead ++ gap).length [] a.name label _ behind (by simp) hlabel hextent
    have ha : a = ⟨a.name, some ('{' :: ((left ++ (component ++ right)) ++ ['}'])), (lead ++ gap).length,
        (lead ++ gap).length + covered.length⟩ := by
      rw [← hvalue, ← hstart', ← hstop']
    rw [ha]
    rw [List.nil_append, hcovered] at hitem
    exact hitem
  · have hcode := h.code hcloses
    rw [List.append_assoc] at hcode
    rw [framesAfter_append, hcode, Option.bind_some, (hblank _).reads_code]
  · rw [← hcovered]
    exact (neutral_of_isTagChar hlabel.isTagChar _).append (neutral_braced hextent)
  · exact ((hmute rest).passes formed_nil (by simp) id).1
  · obtain ⟨items, hlater⟩ := h.later
    exact hlater.opens
  · rw [← hcovered] at hfeed ⊢
    exact mute_component hlabel hleft hright hmember hfeed behind

/-! ## Both edits carried out -/

/-- An attribute that is cut out, where it stands. -/
theorem exists_site_removal (htag : TagName tag) (he : e ∈ removals text tag attr) :
    ∃ t ∈ openingTags text tag, ∃ a ∈ t.attributes, a.name = attr ∧ ∃ lead body behind,
      AttributeAt text t a lead body behind ∧ Site text e lead body behind ∧ e.text = [] := by
  obtain ⟨t, ht, a, ha, hname, rfl⟩ := mem_removals_iff.1 he
  obtain ⟨lead, body, behind, hat⟩ := exists_attributeAt htag ht ha
  refine ⟨t, ht, a, ha, hname, lead, body, behind, hat, ⟨hat.text_eq, ?_, ?_⟩, rfl⟩
  · rw [hat.attributeRange_eq]
  · rw [hat.attributeRange_eq, hat.stop_eq]

/-- An attribute that is turned into an element, where it stands. -/
theorem exists_site_conversion (htag : TagName tag) (hnew : AttributeName new)
    (he : e ∈ conversions text tag old new) : ∃ t ∈ openingTags text tag, t.takes old new ∧
      ∃ a ∈ t.attributes, a.name = old ∧ ∃ component, namedComponent? a = some component ∧
        e = ⟨a.start, a.stop, heldElement new component⟩ ∧
        ∃ front covered behind, Conversion text t a front covered behind e := by
  obtain ⟨t, ht, htakes, a, ha, hname, component, hcomponent, rfl⟩ := mem_conversions_iff.1 he
  obtain ⟨lead, body, behind, hat⟩ := exists_attributeAt htag ht ha
  obtain ⟨front, covered, hconversion⟩ := hat.exists_conversion hcomponent hnew
  exact ⟨t, ht, htakes, a, ha, hname, component, hcomponent, rfl, front, covered, behind, hconversion⟩

theorem revised_removals (htag : TagName tag) (hattr : AttributeName attr)
    (hcloses : ∀ t ∈ openingTags text tag, ∀ a ∈ t.attributes, a.closes = true) :
    Revised CodeEdit [] (carriedOut (removals text tag attr)) text (removeAttribute text tag attr) := by
  rw [removeAttribute_eq htag hattr]
  refine revised_carriedOut (fun e he => ?_) fun e he => ?_
  · obtain ⟨t, -, a, -, -, lead, body, behind, -, hsite, -⟩ := exists_site_removal htag he
    exact ⟨lead, body, behind, hsite⟩
  · obtain ⟨t, ht, a, ha, -, lead, body, behind, hat, hsite, htext⟩ :=
      exists_site_removal htag (mem_of_mem_carriedOut he)
    have hedit := hat.codeEdit_removal ha (hcloses t ht) e.start e.stop
    rw [← htext] at hedit
    exact ⟨lead, body, behind, hsite, hedit⟩

theorem Conversion.covered_ne_nil {t : OpeningTag} {a : Attribute} {front covered behind : List Char}
    (h : Conversion text t a front covered behind e) : covered ≠ [] := by
  obtain ⟨gap, more, rfl, -, hname, -⟩ := h.item.exists_name
  simp [hname.ne_nil]

theorem revised_conversions {P : EditProperty} (htag : TagName tag) (hold : AttributeName old)
    (hnew : AttributeName new) (hfits : ∀ e ∈ carriedOut (conversions text tag old new),
      ∀ t ∈ openingTags text tag, ∀ a front covered behind, Conversion text t a front covered behind e →
        P front covered behind e) :
    Revised P [] (carriedOut (conversions text tag old new)) text (convertAttribute text tag old new) := by
  rw [convertAttribute_eq htag hold hnew]
  refine revised_carriedOut (fun e he => ?_) fun e he => ?_
  · obtain ⟨t, -, -, a, -, -, component, -, -, front, covered, behind, hat⟩ :=
      exists_site_conversion htag hnew he
    exact ⟨front, covered, behind, hat.site⟩
  · obtain ⟨t, ht, -, a, -, -, component, -, -, front, covered, behind, hat⟩ :=
      exists_site_conversion htag hnew (mem_of_mem_carriedOut he)
    exact ⟨front, covered, behind, hat.site, hfits e he t ht a front covered behind hat⟩

theorem Site.between_eq {front covered behind : List Char} (h : Site text e front covered behind) :
    between e.start e.stop text = covered :=
  Text.between_eq h.text_eq h.start_eq h.stop_eq

/-- Conversions within lines exchange mute pieces. -/
theorem revised_conversions_mute (htag : TagName tag) (hold : AttributeName old)
    (hnew : AttributeName new) (hlines : WithinLines text (carriedOut (conversions text tag old new))) :
    Revised MuteEdit [] (carriedOut (conversions text tag old new)) text
      (convertAttribute text tag old new) := by
  refine revised_conversions htag hold hnew fun e he t _ a front covered behind hat => hat.mute ?_
  have hfeed := hlines e he
  rwa [hat.site.between_eq] at hfeed

/-- Dropping an attribute and turning it into an element, in any text whose tags of the name have quoted values
that close on their lines: what is code and what is literal stays so at every character that is kept exactly
when the new text goes on with code behind each edit. An attribute that is dropped with no line end keeps it in
any case, and one that is turned into an element on one line does so in every text. -/
theorem attributeEdits_keep_literals_iff (text : List Char) {tag attr old new : List Char}
    (htag : TagName tag) (hattr : AttributeName attr) (hold : AttributeName old)
    (hnew : AttributeName new) :
    let removed := carriedOut (removals text tag attr)
    let converted := carriedOut (conversions text tag old new)
    ((∀ t ∈ openingTags text tag, ∀ a ∈ t.attributes, a.closes = true) →
      (KeepsLiterals text removed (removeAttribute text tag attr) ↔
        LeavesCode removed (removeAttribute text tag attr)) ∧
      (WithinLines text removed → KeepsLiterals text removed (removeAttribute text tag attr)) ∧
      (KeepsLiterals text converted (convertAttribute text tag old new) ↔
        LeavesCode converted (convertAttribute text tag old new))) ∧
    (WithinLines text converted → KeepsLiterals text converted (convertAttribute text tag old new)) := by
  refine ⟨fun hcloses => ?_, fun hlines => ?_⟩
  · have hremoved := revised_removals htag hattr hcloses
    have hconverted : Revised CodeEdit [] (carriedOut (conversions text tag old new)) text
        (convertAttribute text tag old new) :=
      revised_conversions htag hold hnew fun e _ t ht a front covered behind hat => hat.code (hcloses t ht)
    refine ⟨hremoved.keepsLiterals_iff, fun hlines => ?_, hconverted.keepsLiterals_iff⟩
    refine hremoved.keepsLiterals_of_cutsLine fun e he => ⟨?_, hlines e he⟩
    obtain ⟨t, -, a, -, -, lead, body, behind, -, -, htext⟩ :=
      exists_site_removal htag (mem_of_mem_carriedOut he)
    exact htext
  · have hmute := revised_conversions_mute htag hold hnew hlines
    refine (hmute.tracks formed_nil).keepsLiterals fun e he => ?_
    obtain ⟨t, -, -, a, -, -, component, -, -, front, covered, behind, hat⟩ :=
      exists_site_conversion htag hnew (mem_of_mem_carriedOut he)
    have hlen := List.length_pos_of_ne_nil hat.covered_ne_nil
    have hstop := hat.site.stop_eq
    omega

theorem attributeEdits_keep_literals_iff_sample :
    let text := "<A x=\"1\" c=\x7bD\x7d />".toList
    (∀ t ∈ openingTags text "A".toList, ∀ a ∈ t.attributes, a.closes = true) ∧
      KeepsLiterals text [⟨2, 8, []⟩] "<A c=\x7bD\x7d />".toList ∧
      LeavesCode [⟨2, 8, []⟩] "<A c=\x7bD\x7d />".toList ∧
      KeepsLiterals text [⟨9, 14, "d=\x7b<D />\x7d".toList⟩] "<A x=\"1\" d=\x7b<D />\x7d />".toList := by
  have htag : TagName "A".toList := ⟨by decide, List.all_iff_forall_prop.1 (by decide)⟩
  have hx : AttributeName "x".toList := by decide
  have hc : AttributeName "c".toList := by decide
  have hd : AttributeName "d".toList := by decide
  have htags : openingTags "<A x=\"1\" c=\x7bD\x7d />".toList "A".toList = [⟨"A".toList, 0, 2, 17,
      [⟨"x".toList, some "\"1\"".toList, 3, 8⟩, ⟨"c".toList, some "\x7bD\x7d".toList, 9, 14⟩]⟩] := by decide +kernel
  have hcloses : ∀ t ∈ openingTags "<A x=\"1\" c=\x7bD\x7d />".toList "A".toList, ∀ a ∈ t.attributes,
      a.closes = true := by
    rw [htags]
    decide
  have hremoved : carriedOut (removals "<A x=\"1\" c=\x7bD\x7d />".toList "A".toList "x".toList) =
      [⟨2, 8, []⟩] := by decide +kernel
  have hconverted : carriedOut (conversions "<A x=\"1\" c=\x7bD\x7d />".toList "A".toList "c".toList
      "d".toList) = [⟨9, 14, "d=\x7b<D />\x7d".toList⟩] := by decide +kernel
  have hremove : removeAttribute "<A x=\"1\" c=\x7bD\x7d />".toList "A".toList "x".toList =
      "<A c=\x7bD\x7d />".toList := by decide +kernel
  have hconvert : convertAttribute "<A x=\"1\" c=\x7bD\x7d />".toList "A".toList "c".toList "d".toList =
      "<A x=\"1\" d=\x7b<D />\x7d />".toList := by decide +kernel
  obtain ⟨hclosing, hlines⟩ :=
    attributeEdits_keep_literals_iff "<A x=\"1\" c=\x7bD\x7d />".toList htag hx hc hd
  obtain ⟨hiff, hkeeps, -⟩ := hclosing hcloses
  have hfeed : WithinLines "<A x=\"1\" c=\x7bD\x7d />".toList
      (carriedOut (removals "<A x=\"1\" c=\x7bD\x7d />".toList "A".toList "x".toList)) := by
    rw [hremoved]
    decide
  have hfeed' : WithinLines "<A x=\"1\" c=\x7bD\x7d />".toList
      (carriedOut (conversions "<A x=\"1\" c=\x7bD\x7d />".toList "A".toList "c".toList "d".toList)) := by
    rw [hconverted]
    decide
  have hcut := hkeeps hfeed
  have hleaves := hiff.1 hcut
  have hheld := hlines hfeed'
  rw [hremoved, hremove] at hcut hleaves
  rw [hconverted, hconvert] at hheld
  exact ⟨hcloses, hcut, hleaves, hheld⟩

/-- Without the line end an apostrophe of the copy closes at another one. -/
example : inertRanges "Don't <A\n attr='x'>isn't</A>".toList = [(15, 18)] ∧
    inertRanges (removeAttribute "Don't <A\n attr='x'>isn't</A>".toList "A".toList "attr".toList) =
      [(3, 13)] := by decide +kernel

end Codemod.Source
