import Codemod.Proofs.Source.AttributeEdit

/-! What is read of the tags of a text in which attributes have been turned into elements. A tag of the new text is
one of the old text, item by item, or the element of a conversion, which has no attributes; so nothing is left to
turn, and a second run finds the text as it wants it. -/
namespace Codemod.Source
open Text

/-! ## Conversions as mute pieces -/

/-- The edit writes the attribute `new` with an element in place of an attribute. -/
structure HoldsElement (new front covered behind : List Char) (e : Edit) : Prop where
  mute : MuteEdit front covered behind e
  behind_name : ∀ c ∈ front.getLast?, isAttributeChar c = false
  last : covered.getLast? = some '}'
  item : ∃ a, IsItem front.length covered behind ⟨front.length, front.length + covered.length, some a⟩
  text : ∃ component, isMemberExpression component = true ∧ e.text = heldElement new component

variable {text tag old new front cs cs' : List Char} {edits all : List Edit}

/-- Behind `front` the old text goes on as `cs` and the new one as `cs'`, and of all edits those that are left
are carried out there. -/
structure Pending (new : List Char) (all : List Edit) (front : List Char) (edits : List Edit)
    (cs cs' : List Char) : Prop where
  revised : Revised (HoldsElement new) front edits cs cs'
  past : ∀ e ∈ all, e ∈ edits ∨ e.stop ≤ front.length

theorem exchangesNames_holdsElement (new : List Char) :
    ExchangesNames isAttributeChar (HoldsElement new) where
  old h := h.mute.1.head
  new h := h.mute.2.head
  behind h := h.behind_name

/-- What no conversion can begin in is kept. -/
theorem Pending.keep_piece {piece rest' : List Char} (h : Pending new all front edits cs (piece ++ rest'))
    (hpiece : NoNameIn isAttributeChar front piece) :
    ∃ rest, cs = piece ++ rest ∧ Pending new all (front ++ piece) edits rest rest' := by
  obtain ⟨rest, rfl, hrest⟩ := h.revised.keep_new (exchangesNames_holdsElement new) hpiece
  refine ⟨rest, rfl, hrest, fun e he => (h.past e he).imp_right fun hstop => ?_⟩
  rw [List.length_append]
  omega

/-- What no name begins in is kept. -/
theorem Pending.keep_plain {piece rest' : List Char} (h : Pending new all front edits cs (piece ++ rest'))
    (hpiece : ∀ c ∈ piece, isNameStart c = false) :
    ∃ rest, cs = piece ++ rest ∧ Pending new all (front ++ piece) edits rest rest' :=
  h.keep_piece (noNameIn_of_forall hpiece front)

theorem Pending.keep_char {c : Char} {rest' : List Char} (h : Pending new all front edits cs (c :: rest'))
    (hc : isNameStart c = false) : ∃ rest, cs = c :: rest ∧ Pending new all (front ++ [c]) edits rest rest' := by
  rw [← List.singleton_append] at h
  exact h.keep_plain (by simpa using hc)

/-- What goes on with a name is kept. -/
theorem Pending.keep_name {piece rest' : List Char} (h : Pending new all front edits cs (piece ++ rest'))
    (hlast : ∃ d ∈ front.getLast?, isAttributeChar d = true) (hpiece : ∀ c ∈ piece, isAttributeChar c = true) :
    ∃ rest, cs = piece ++ rest ∧ Pending new all (front ++ piece) edits rest rest' :=
  h.keep_piece (noNameIn_of_goesOn hlast hpiece)

/-- Behind a name both texts go on with the same character. -/
theorem Pending.head?_eq (h : Pending new all front edits cs cs')
    (hlast : ∃ d ∈ front.getLast?, isAttributeChar d = true) : cs.head? = cs'.head? := by
  obtain ⟨hrevised, -⟩ := h
  cases hrevised with
  | nil => rfl
  | keep => rfl
  | edit _ _ hfits _ =>
    obtain ⟨d, hd, hchar⟩ := hlast
    rw [hfits.behind_name d hd] at hchar
    cases hchar

theorem Pending.mute (h : Pending new all front edits cs cs') : Revised MuteEdit front edits cs cs' :=
  h.revised.imp fun hfits => hfits.mute

/-- Behind blanks an equals sign stands in both texts or in neither. -/
theorem Pending.head?_trimLeft (h : Pending new all front edits cs cs')
    (hbare : (trimLeft cs').head? ≠ some '=') : (trimLeft cs).head? ≠ some '=' := by
  obtain ⟨gap, rest', rfl, hgap, hrest'⟩ := exists_span isBlank cs'
  obtain ⟨rest, rfl, hrest⟩ := h.keep_plain fun c hc => isNameStart_of_isBlank (hgap c hc)
  have hhead := hrest.mute.alikeHead.head
  have hblank : ∀ c ∈ rest.head?, isBlank c = false := by
    intro c hc
    by_contra hblank
    have hb : isBlank c = true := by simpa using hblank
    exact hblank (hrest' c ((hhead c (isNameStart_of_isBlank hb)).2 hc))
  rw [trimLeft, dropWhile_span hgap hrest'] at hbare
  rw [trimLeft, dropWhile_span hgap hblank]
  exact fun hequals => hbare ((hhead '=' (by decide)).2 hequals)

/-! ## Values -/

/-- What a brace closes in the new text it has closed in the old one. -/
theorem Pending.braces {inner' rest' : List Char} (h : Pending new all front edits cs (inner' ++ rest'))
    (hinner' : bracketExtent? '{' (inner' ++ rest') = some inner'.length) : ∃ inner rest right,
      cs = inner ++ rest ∧ bracketExtent? '{' (inner ++ rest) = some inner.length ∧
      Pending new all (front ++ inner) right rest rest' ∧
      (inner = inner' ∨ ∃ e ∈ edits, ∃ lead covered behind, HoldsElement new lead covered behind e ∧
        ∀ c ∈ e.text, c ∈ inner') := by
  cases (h.mute.tracks formed_nil).closesAlike_brace with
  | never _ hnew =>
    have hnone : bracketExtent? '{' (inner' ++ rest') = none := hnew
    rw [hnone] at hinner'
    cases hinner'
  | both left right inner rest inner₀ rest₀ hedits hcs hcs' hold hnew hbefore hbehind =>
    subst hedits hcs
    have hlen : inner'.length = inner₀.length := Option.some_inj.1 (hinner'.symm.trans hnew)
    obtain ⟨rfl, rfl⟩ := List.append_inj hcs' hlen
    refine ⟨inner, rest, right, rfl, hold, ⟨?_, fun e he => ?_⟩, ?_⟩
    · refine hbehind.replaced.revised (List.append_assoc _ _ _).symm (List.length_append).symm fun e he => ?_
      exact h.revised.exists_site (List.mem_append_right left he)
    · rw [List.length_append]
      rcases h.past e he with hmem | hstop
      · exact (List.mem_append.1 hmem).elim (fun hleft => .inr (hbefore.cursor_le e hleft).2.2) .inl
      · exact .inr (by omega)
    · cases hbefore with
      | rest => exact .inl rfl
      | @edit _ e later _ _ kept covered _ _ _ =>
        obtain ⟨lead, covered, behind, -, hfits⟩ := h.revised.exists_site (e := e) (by simp)
        exact .inr ⟨e, by simp, lead, covered, behind, hfits, fun c hc => by simp [hc]⟩

/-- Where a quote stands in the new text it has stood in the old one, behind the same number of quotes. -/
theorem Pending.quote {quote : Char} (hquote : isQuote quote = true) {value' rest' : List Char}
    (h : Pending new all front edits cs (value' ++ quote :: rest')) (hvalue' : quote ∉ value') :
    ∃ value rest right, cs = value ++ quote :: rest ∧ quote ∉ value ∧
      Pending new all (front ++ (value ++ [quote])) right rest rest' := by
  have hstart : isNameStart quote = false := by
    rcases eq_of_isQuote hquote with rfl | rfl <;> decide
  obtain ⟨hrevised, hpast⟩ := h
  generalize hcs' : value' ++ quote :: rest' = cs' at hrevised
  induction hrevised generalizing value' with
  | nil => simp at hcs'
  | @keep front edits c cs cs' later ih =>
    have hpast' : ∀ e ∈ all, e ∈ edits ∨ e.stop ≤ (front ++ [c]).length := fun e he =>
      (hpast e he).imp_right fun hstop => by
        rw [List.length_append]
        omega
    cases value' with
    | nil =>
      obtain ⟨rfl, rfl⟩ := List.cons.inj hcs'
      exact ⟨[], cs, edits, rfl, by simp, later, hpast'⟩
    | cons d value' =>
      obtain ⟨rfl, htail⟩ := List.cons.inj hcs'
      obtain ⟨value, rest, right, rfl, hvalue, hpending⟩ := ih (fun hm => hvalue' (by simp [hm])) hpast' htail
      rw [List.append_assoc] at hpending
      refine ⟨d :: value, rest, right, rfl, ?_, hpending⟩
      have hne : quote ≠ d := fun heq => hvalue' (by simp [heq])
      simp [hne, hvalue]
  | @edit front edits e covered cs cs' hestart hestop hfits later ih =>
    have hcalm {piece rest : List Char} (hmute : Mute piece rest) : quote ∉ piece :=
      fun hm => (hmute.calm quote hquote quote hm).1 rfl
    obtain ⟨value', rfl⟩ : ∃ more, value' = e.text ++ more := by
      rcases List.append_eq_append_iff.1 hcs' with ⟨y, htext, hrest⟩ | ⟨more, hmore, -⟩
      · cases y with
        | nil => exact ⟨[], by simpa using htext.symm⟩
        | cons d y =>
          obtain rfl : quote = d := (List.cons.inj hrest).1
          exact absurd (by rw [htext]; simp) (hcalm hfits.mute.2)
      · exact ⟨more, hmore⟩
    rw [List.append_assoc] at hcs'
    obtain ⟨value, rest, right, rfl, hvalue, hpending⟩ := ih (fun hm => hvalue' (by simp [hm])) (fun d hd => by
      rw [List.length_append]
      rcases hpast d hd with hmem | hstop
      · rcases List.mem_cons.1 hmem with rfl | hmem
        · exact .inr (by omega)
        · exact .inl hmem
      · exact .inr (by omega)) (List.append_cancel_left hcs')
    rw [List.append_assoc] at hpending
    refine ⟨covered ++ value, rest, right, by simp, ?_, ?_⟩
    · simp [hcalm hfits.mute.1, hvalue]
    · rwa [List.append_assoc]

/-! ## Items -/

theorem Neutral.bracketExtent?_eq {inner rest : List Char} (h : Neutral inner ('}' :: rest)) :
    bracketExtent? '{' ((inner ++ ['}']) ++ rest) = some (inner ++ ['}']).length := by
  have hextent := h.extent ['}'] (by simp)
  have hone : extent? ([] ++ bracketFrames ['}']) ('}' :: rest) = some 1 := rfl
  rw [hone, Option.map_some] at hextent
  rw [List.append_assoc, List.singleton_append, List.length_append, List.length_singleton, Nat.add_comm]
  exact hextent

theorem ne_nil_of_isMemberExpression {component : List Char} (h : isMemberExpression component = true) :
    component ≠ [] := by
  rintro rfl
  revert h
  decide

/-- The value of an attribute that names a component holds no tag. -/
theorem IsItem.notMem_of_namedComponent? {pos stop : Nat} {body rest component value : List Char} {a : Attribute}
    (h : IsItem pos body rest ⟨pos, stop, some a⟩) (hcomponent : namedComponent? a = some component)
    (hvalue : a.value = some value) : '<' ∉ value := by
  obtain ⟨gap, label, left, right, -, -, -, hleft, hright, hmember, heq, -⟩ := h.exists_component hcomponent
  obtain rfl := Option.some_inj.1 (hvalue.symm.trans heq)
  have hblank : isBlank '<' = false := by decide
  have hchar : isAttributeChar '<' = false := by decide
  simp only [List.mem_cons, List.mem_append, List.not_mem_nil, or_false, not_or]
  refine ⟨by decide, ⟨fun hm => ?_, fun hm => ?_, fun hm => ?_⟩, by decide⟩
  · rw [hleft _ hm] at hblank
    cases hblank
  · rw [isAttributeChar_of_isMemberExpression hmember _ hm] at hchar
    cases hchar
  · rw [hright _ hm] at hblank
    cases hblank

/-- An attribute that holds an element is an item, and names no component. -/
theorem exists_isItem_heldElement {gap component : List Char} (hgap : ∀ c ∈ gap, isBlank c = true)
    (hnew : AttributeName new) (hmember : isMemberExpression component = true) (pos : Nat) (rest : List Char) :
    ∃ a, IsItem pos (gap ++ heldElement new component) rest
        ⟨pos, pos + (gap ++ heldElement new component).length, some a⟩ ∧
      a.name = new ∧ namedComponent? a = none := by
  have heq : heldElement new component =
      (new ++ ([] ++ '=' :: [])) ++ '{' :: (('<' :: component ++ ([' '] ++ ['/', '>'])) ++ ['}']) := by
    simp [heldElement]
  have htag : TagName component :=
    ⟨ne_nil_of_isMemberExpression hmember, isAttributeChar_of_isMemberExpression hmember⟩
  have hinner : Neutral ('<' :: component ++ ([' '] ++ ['/', '>'])) ('}' :: rest) :=
    (neutral_tagName htag _).append (neutral_close (List.all_iff_forall_prop.1 (by decide)) (.inr rfl) _)
  have hlabel : IsLabel new (new ++ ([] ++ '=' :: [])) := ⟨hnew, [], [], rfl, by simp, by simp⟩
  have hitem := @IsItem.braced pos gap new _ _ rest hgap hlabel hinner.bracketExtent?_eq
  rw [← heq] at hitem
  refine ⟨_, hitem, rfl, ?_⟩
  by_contra hsome
  obtain ⟨component', hcomponent⟩ := Option.ne_none_iff_exists'.1 hsome
  exact hitem.notMem_of_namedComponent? hcomponent rfl (by simp)

/-- Blanks in front of an attribute belong to its item. -/
theorem IsItem.append_blanks {pos stop : Nat} {gap body rest : List Char} {a : Attribute}
    (hgap : ∀ c ∈ gap, isBlank c = true) (h : IsItem (pos + gap.length) body rest ⟨pos + gap.length, stop, some a⟩) :
    IsItem pos (gap ++ body) rest ⟨pos, pos + (gap ++ body).length, some a⟩ := by
  have hblank {gap' : List Char} (hgap' : ∀ c ∈ gap', isBlank c = true) : ∀ c ∈ gap ++ gap', isBlank c = true :=
    fun c hc => (List.mem_append.1 hc).elim (hgap c) (hgap' c)
  have hlen (gap' cs : List Char) : pos + gap.length + (gap' ++ cs).length = pos + ((gap ++ gap') ++ cs).length := by
    simp only [List.length_append]
    omega
  have hstart (gap' : List Char) : pos + gap.length + gap'.length = pos + (gap ++ gap').length := by
    rw [List.length_append, Nat.add_assoc]
  cases h with
  | @flag gap' name _ hgap' hname hends hbare =>
    rw [hlen, hstart, ← List.append_assoc]
    exact .flag (hblank hgap') hname hends hbare
  | @quoted gap' name label value _ quote hgap' hlabel hquote hends =>
    rw [hlen, hstart, ← List.append_assoc]
    exact .quoted (hblank hgap') hlabel hquote hends
  | @braced gap' name label inner _ hgap' hlabel hinner =>
    rw [hlen, hstart, ← List.append_assoc]
    exact .braced (hblank hgap') hlabel hinner

/-- An attribute of the new text is one that was there, which no conversion touches when it names a component, or
it holds an element. -/
inductive AttributeAlike (new : List Char) (all : List Edit) (a a' : Attribute) : Prop
  | converted (name : a'.name = new) (value : namedComponent? a' = none)
  | kept (name : a'.name = a.name)
      (value : ∀ component, namedComponent? a' = some component → namedComponent? a = some component)
      (apart : ∀ e ∈ all, e.stop ≤ a.start ∨ a.start < e.start)

/-- Behind the blanks the new text goes on with what a conversion has written. -/
def BeginsConverted (new : List Char) (all : List Edit) (front gap cs cs' : List Char) : Prop :=
  ∃ e later covered rest rest', cs = (gap ++ covered) ++ rest ∧ cs' = e.text ++ rest' ∧
    HoldsElement new (front ++ gap) covered rest e ∧ Pending new all (front ++ (gap ++ covered)) later rest rest'

/-- No edit reaches into what stands at the offset. -/
def ApartFrom (all : List Edit) (i : Nat) : Prop := ∀ e ∈ all, e.stop ≤ i ∨ i < e.start

/-- A name of the new text with blanks in front of it has been there, or begins a conversion. -/
theorem Pending.name {gap name more' : List Char} (h : Pending new all front edits cs ((gap ++ name) ++ more'))
    (hgap : ∀ c ∈ gap, isBlank c = true) (hname : AttributeName name) :
    BeginsConverted new all front gap cs (name ++ more') ∨
    ∃ more, cs = (gap ++ name) ++ more ∧ Pending new all (front ++ (gap ++ name)) edits more more' ∧
      ApartFrom all (front.length + gap.length) := by
  obtain ⟨c, tail, rfl, hc, htail⟩ := hname.exists_cons
  have hpast := h.past
  rw [List.append_assoc] at h
  obtain ⟨rest, rfl, hrevised, hpast'⟩ := h.keep_plain fun c hc => isNameStart_of_isBlank (hgap c hc)
  generalize hcs' : c :: tail ++ more' = cs' at hrevised
  cases hrevised with
  | nil => cases hcs'
  | @keep _ _ d cs cs' later =>
    obtain ⟨rfl, rfl⟩ := List.cons.inj hcs'
    have hbehind := later.replaced.cursor_le
    simp only [List.length_append, List.length_singleton] at hbehind hpast'
    have hpending : Pending new all ((front ++ gap) ++ [c]) edits cs (tail ++ more') := by
      refine ⟨later, fun e he => (hpast' e he).imp_right fun hstop => ?_⟩
      simp only [List.length_append]
      omega
    obtain ⟨more, rfl, hmore⟩ := hpending.keep_name
      ⟨c, by simp, isAttributeChar_of_isNameStart hc⟩ htail
    have hassoc : ((front ++ gap) ++ [c]) ++ tail = front ++ (gap ++ c :: tail) := by simp
    rw [hassoc] at hmore
    refine .inr ⟨more, by simp, hmore, fun e he => ?_⟩
    rcases hpast e he with hmem | hstop
    · have := (hbehind e hmem).1
      omega
    · omega
  | @edit _ later e covered cs cs' hstart hstop hfits hlater =>
    refine .inl ⟨e, later, covered, cs, cs', (List.append_assoc _ _ _).symm, rfl, hfits, ?_, fun d hd => ?_⟩
    · rwa [List.append_assoc] at hlater
    · simp only [List.length_append] at hstart hpast' ⊢
      rcases hpast' d hd with hmem | hstop
      · rcases List.mem_cons.1 hmem with rfl | hmem
        · exact .inr (by omega)
        · exact .inl hmem
      · exact .inr (by omega)

/-- What an item of the new text has been. -/
structure ItemAlike (new : List Char) (all : List Edit) (front cs : List Char) (item' : TagItem)
    (rest' : List Char) where
  body : List Char
  rest : List Char
  item : TagItem
  edits : List Edit
  old_eq : cs = body ++ rest
  isItem : IsItem front.length body rest item
  behind : Pending new all (front ++ body) edits rest rest'
  attr : List.Forall₂ (AttributeAlike new all) item.attr.toList item'.attr.toList

/-- What a conversion has written is one item, and so is what it stands for. -/
theorem BeginsConverted.nonempty_itemAlike {gap rest' cs' : List Char} (hgap : ∀ c ∈ gap, isBlank c = true)
    (hnew : AttributeName new) (h : BeginsConverted new all front gap cs cs') {pos : Nat} {body' : List Char}
    {item' : TagItem} (hitem : IsItem pos body' rest' item') (htext : body' ++ rest' = gap ++ cs') :
    Nonempty (ItemAlike new all front cs item' rest') := by
  obtain ⟨e, later, covered, rest, behind', hcs, rfl, hfits, hbehind⟩ := h
  obtain ⟨a, hitem₀⟩ := hfits.item
  obtain ⟨component, hmember, heq⟩ := hfits.text
  obtain ⟨a', hitem', hname, hvalue⟩ := exists_isItem_heldElement hgap hnew hmember pos behind'
  rw [heq, ← List.append_assoc] at htext
  obtain ⟨rfl, hattr⟩ := hitem'.unique hitem htext.symm
  obtain rfl := List.append_cancel_left htext
  rw [List.length_append] at hitem₀
  refine ⟨⟨_, rest, _, later, hcs, hitem₀.append_blanks hgap, hbehind, ?_⟩⟩
  rw [hattr]
  exact .cons (.converted hname hvalue) .nil

/-- A label of the new text with what follows it has been there, or begins a conversion. -/
theorem Pending.label {gap name label more' : List Char} {d : Char}
    (h : Pending new all front edits cs ((gap ++ label) ++ d :: more')) (hgap : ∀ c ∈ gap, isBlank c = true)
    (hlabel : IsLabel name label) (hd : isNameStart d = false) :
    BeginsConverted new all front gap cs (label ++ d :: more') ∨
    ∃ more, cs = (gap ++ label) ++ d :: more ∧ Pending new all (front ++ ((gap ++ label) ++ [d])) edits more more' ∧
      ApartFrom all (front.length + gap.length) := by
  obtain ⟨hname, gap', gap'', rfl, hgap', hgap''⟩ := hlabel
  have hassoc (cs : List Char) : (gap ++ (name ++ (gap' ++ '=' :: gap''))) ++ d :: cs =
      (gap ++ name) ++ ((gap' ++ '=' :: (gap'' ++ [d])) ++ cs) := by simp
  rw [hassoc] at h
  rcases h.name hgap hname with hconverted | ⟨more, rfl, hmore, hapart⟩
  · refine .inl ?_
    have heq : (name ++ (gap' ++ '=' :: gap'')) ++ d :: more' =
        name ++ ((gap' ++ '=' :: (gap'' ++ [d])) ++ more') := by simp
    rwa [heq]
  · have hplain : ∀ c ∈ gap' ++ '=' :: (gap'' ++ [d]), isNameStart c = false := by
      simp only [List.mem_append, List.mem_cons, List.not_mem_nil, or_false]
      rintro c (hc | rfl | hc | rfl)
      · exact isNameStart_of_isBlank (hgap' c hc)
      · decide
      · exact isNameStart_of_isBlank (hgap'' c hc)
      · exact hd
    obtain ⟨rest, rfl, hrest⟩ := hmore.keep_plain hplain
    refine .inr ⟨rest, (hassoc rest).symm, ?_, hapart⟩
    have hfront : (front ++ (gap ++ name)) ++ (gap' ++ '=' :: (gap'' ++ [d])) =
        front ++ ((gap ++ (name ++ (gap' ++ '=' :: gap''))) ++ [d]) := by simp
    rwa [hfront] at hrest

/-- Each item of the new text has been one. -/
theorem Pending.nonempty_itemAlike (hnew : AttributeName new) {pos : Nat} {body' rest' : List Char}
    {item' : TagItem} (h : Pending new all front edits cs (body' ++ rest')) (hitem : IsItem pos body' rest' item') :
    Nonempty (ItemAlike new all front cs item' rest') := by
  have hopen : isNameStart '{' = false := by decide
  have hwhole := hitem
  cases hitem with
  | @spread gap inner' _ hgap hinner' =>
    have hlead (cs cs' : List Char) : gap ++ '{' :: cs ++ cs' = (gap ++ ['{']) ++ (cs ++ cs') := by simp
    rw [hlead] at h
    obtain ⟨rest₀, rfl, hopened⟩ := h.keep_plain fun c hc => by
      rcases List.mem_append.1 hc with hc | hc
      · exact isNameStart_of_isBlank (hgap c hc)
      · rwa [List.mem_singleton.1 hc]
    obtain ⟨inner, rest, right, rfl, hinner, hbehind, -⟩ := hopened.braces hinner'
    have hfront : (front ++ (gap ++ ['{'])) ++ inner = front ++ (gap ++ '{' :: inner) := by simp
    rw [hfront] at hbehind
    exact ⟨⟨gap ++ '{' :: inner, rest, _, right, (hlead _ _).symm, .spread hgap hinner, hbehind, .nil⟩⟩
  | @flag gap name _ hgap hname hends hbare =>
    rcases h.name hgap hname with hconverted | ⟨more, rfl, hmore, hapart⟩
    · exact hconverted.nonempty_itemAlike hgap hnew hwhole (List.append_assoc _ _ _)
    · have hlast : ∃ d ∈ (front ++ (gap ++ name)).getLast?, isAttributeChar d = true := by
        obtain ⟨d, hd⟩ := Option.ne_none_iff_exists'.1 (mt List.getLast?_eq_none_iff.1 hname.ne_nil)
        refine ⟨d, ?_, hname.chars d (List.mem_of_getLast? hd)⟩
        rwa [← List.append_assoc, getLast?_append_of_ne_nil _ hname.ne_nil]
      rw [← hmore.head?_eq hlast] at hends
      exact ⟨⟨gap ++ name, more, _, edits, rfl, .flag hgap hname hends (hmore.head?_trimLeft hbare), hmore,
        .cons (.kept rfl (fun _ h => h) hapart) .nil⟩⟩
  | @quoted gap name label value' _ quote hgap hlabel hquote hends =>
    have hstart : isNameStart quote = false := by
      rcases eq_of_isQuote hquote with rfl | rfl <;> decide
    have hlead (value cs : List Char) : (gap ++ (label ++ quote :: (value ++ [quote]))) ++ cs =
        (gap ++ label) ++ quote :: (value ++ quote :: cs) := by simp
    have hsplit := hlead value' rest'
    rw [hlead] at h
    rcases h.label hgap hlabel hstart with hconverted | ⟨more, rfl, hmore, hapart⟩
    · exact hconverted.nonempty_itemAlike hgap hnew hwhole (hsplit.trans (List.append_assoc _ _ _))
    · obtain ⟨value, rest, right, rfl, hvalue, hbehind⟩ := hmore.quote hquote hends
      have hfront : (front ++ ((gap ++ label) ++ [quote])) ++ (value ++ [quote]) =
          front ++ (gap ++ (label ++ quote :: (value ++ [quote]))) := by simp
      rw [hfront] at hbehind
      refine ⟨⟨_, rest, _, right, (hlead _ _).symm, .quoted hgap hlabel hquote hvalue, hbehind,
        .cons (.kept rfl (fun component hcomponent => ?_) hapart) .nil⟩⟩
      obtain ⟨_, _, _, _, -, -, -, -, -, -, heq, -⟩ := hwhole.exists_component hcomponent
      obtain rfl : quote = '{' := (List.cons.inj (Option.some_inj.1 heq)).1
      exact absurd hquote (by decide)
  | @braced gap name label inner' _ hgap hlabel hinner' =>
    have hlead (inner cs : List Char) : (gap ++ (label ++ '{' :: inner)) ++ cs =
        (gap ++ label) ++ '{' :: (inner ++ cs) := by simp
    have hsplit := hlead inner' rest'
    rw [hlead] at h
    rcases h.label hgap hlabel hopen with hconverted | ⟨more, rfl, hmore, hapart⟩
    · exact hconverted.nonempty_itemAlike hgap hnew hwhole (hsplit.trans (List.append_assoc _ _ _))
    · obtain ⟨inner, rest, right, rfl, hinner, hbehind, hsame⟩ := hmore.braces hinner'
      have hfront : (front ++ ((gap ++ label) ++ ['{'])) ++ inner = front ++ (gap ++ (label ++ '{' :: inner)) := by
        simp
      rw [hfront] at hbehind
      refine ⟨⟨_, rest, _, right, (hlead _ _).symm, .braced hgap hlabel hinner, hbehind,
        .cons (.kept rfl (fun component hcomponent => ?_) hapart) .nil⟩⟩
      rcases hsame with rfl | ⟨e, -, lead, covered, behind, hfits, hinside⟩
      · exact hcomponent
      · obtain ⟨component', -, htext⟩ := hfits.text
        have hno := hwhole.notMem_of_namedComponent? hcomponent rfl
        exact absurd (List.mem_cons_of_mem _ (hinside '<' (by simp [htext, heldElement]))) hno

/-! ## Tags -/

/-- The items of a tag of the new text have been those of a tag. -/
theorem Pending.exists_tagBody (hnew : AttributeName new) {pos stop : Nat} {items' : List TagItem}
    (h : Pending new all front edits cs cs') (hbody : TagBody pos cs' items' stop) :
    ∃ items stop, TagBody front.length cs items stop ∧ List.Forall₂ (AttributeAlike new all)
      (items.filterMap TagItem.attr) (items'.filterMap TagItem.attr) := by
  induction hbody generalizing front cs edits with
  | @close pos gap finish rest' hgap hfinish =>
    rw [← List.append_assoc] at h
    obtain ⟨rest, rfl, -⟩ := h.keep_plain fun c hc => by
      rcases List.mem_append.1 hc with hc | hc
      · exact isNameStart_of_isBlank (hgap c hc)
      · have hnone : ∀ d ∈ ['/', '>'], isNameStart d = false :=
          List.all_iff_forall_prop.1 (by decide)
        refine hnone c ?_
        rcases hfinish with rfl | rfl <;> simp_all
    refine ⟨[], front.length + (gap ++ finish).length, ?_, .nil⟩
    rw [List.append_assoc]
    exact .close hgap hfinish
  | @item pos stop body' rest' item' items' hfirst _ ih =>
    obtain ⟨body, rest, item, later, rfl, hitem, hbehind, hattr⟩ := h.nonempty_itemAlike hnew hfirst
    obtain ⟨items, stop, hbody, hattrs⟩ := ih hbehind
    rw [List.length_append, ← hitem.stop_eq] at hbody
    refine ⟨item :: items, stop, .item hitem hbody, ?_⟩
    rw [filterMap_attr_cons, filterMap_attr_cons]
    exact List.rel_append hattr hattrs

/-- The name of a tag is kept. -/
theorem Pending.keep_tagName {rest' : List Char} (htag : TagName tag) (hnew : AttributeName new)
    (h : Pending new all front edits cs (tag ++ rest')) (hends : EndsName rest') :
    ∃ rest, cs = tag ++ rest ∧ Pending new all (front ++ tag) edits rest rest' := by
  obtain ⟨c, tail, rfl⟩ := List.exists_cons_of_ne_nil htag.ne_nil
  have htail : ∀ d ∈ tail, isAttributeChar d = true := fun d hd => htag.chars d (by simp [hd])
  by_cases hc : isNameStart c = true
  · have hname : AttributeName (c :: tail) := ⟨⟨c, rfl, hc⟩, htag.chars⟩
    rw [← List.nil_append (c :: tail)] at h
    rcases h.name (by simp) hname with ⟨e, _, covered, _, behind', -, htext, hfits, -⟩ | ⟨rest, rfl, hrest, -⟩
    · -- behind the name that a conversion writes stands an equals sign
      obtain ⟨component, -, heq⟩ := hfits.text
      have hsplit : (c :: tail) ++ rest' =
          new ++ '=' :: (("\x7b<".toList ++ (component ++ " />\x7d".toList)) ++ behind') := by
        rw [htext, heq]
        simp [heldElement]
      obtain ⟨-, hrest⟩ := span_unique htag.chars hnew.chars hends.head?_not_isAttributeChar
        (by rintro d ⟨⟩; decide) hsplit
      obtain ⟨d, rest, rfl, hd⟩ := hends
      obtain rfl : d = '=' := (List.cons.inj hrest).1
      exact absurd hd (by decide)
    · exact ⟨rest, rfl, hrest⟩
  · obtain ⟨more, rfl, hmore⟩ := h.keep_char (by simpa using hc)
    obtain ⟨rest, rfl, hrest⟩ := hmore.keep_name ⟨c, by simp, htag.chars c (by simp)⟩ htail
    rw [List.append_assoc] at hrest
    exact ⟨rest, rfl, hrest⟩

/-- The element that a conversion writes has no attributes. -/
theorem TagAt.attributes_of_heldElement {result front' rest' x y behind' component : List Char} {t : OpeningTag}
    {items : List TagItem} (h : TagAt result tag t front' rest' items) (htag : TagName tag)
    (hnew : AttributeName new) (hmember : isMemberExpression component = true)
    (htext : heldElement new component = x ++ y) (hy : y ≠ []) (hrest : '<' :: (tag ++ rest') = y ++ behind') :
    t.attributes = [] := by
  have hno {piece : List Char} (hpiece : ∀ c ∈ piece, isAttributeChar c = true) : '<' ∉ piece := fun hm => by
    have := hpiece '<' hm
    revert this
    decide
  have hchars := isAttributeChar_of_isMemberExpression hmember
  obtain ⟨c, y, rfl⟩ := List.exists_cons_of_ne_nil hy
  obtain ⟨rfl, hcons⟩ := List.cons.inj hrest
  have hwhole : heldElement new component =
      (new ++ "=\x7b".toList) ++ '<' :: (component ++ " />\x7d".toList) := by simp [heldElement]
  -- there is one tag in it
  rw [hwhole] at htext
  obtain ⟨-, -, rfl⟩ := (List.append_cons_inj_of_notMem (by simp [hno hnew.chars]) (by simp [hno hchars])).1 htext
  have hname : tag ++ rest' = component ++ (" />\x7d".toList ++ behind') := by
    rw [← List.append_assoc]
    exact hcons
  have hend : EndsName (" />\x7d".toList ++ behind') := ⟨' ', _, rfl, .inl (by decide)⟩
  obtain rfl := name_unique htag.chars hchars h.ends hend hname
  obtain rfl := List.append_cancel_left hname
  have hread := h.body.attributesFrom_eq
  have hclose := @attributesFrom_close [' '] ['/', '>'] (List.all_iff_forall_prop.1 (by decide)) (.inr rfl)
    t.nameEnd ('}' :: behind')
  have hattributes := congrArg Prod.fst (Option.some_inj.1 (hread.symm.trans hclose))
  rw [h.attributes]
  exact hattributes

theorem Revised.starts_lt {result : List Char} (h : Revised (HoldsElement new) front edits cs result) :
    ∀ e ∈ edits, e.start < e.stop := fun e he =>
  (h.starts_of_covers (fun hfits => hfits.mute.1.ne_nil) e he).2

/-- In front of what is kept both texts end alike. -/
theorem EndsAlike.lastOr_eq {piece piece' rest : List Char}
    (h : EndsAlike (HoldsElement new) front piece piece' rest) (behind : Option Char) :
    lastOr behind piece' = lastOr behind piece := by
  cases h with
  | kept h => rw [h]
  | edit before covered before' kept e hold hpiece hfits =>
    have hnew : e.text.getLast? = some '}' := by
      obtain ⟨component, -, heq⟩ := hfits.text
      have hsplit : e.text = (new ++ "=\x7b<".toList ++ component ++ " />".toList) ++ ['}'] := by
        rw [heq]
        simp [heldElement]
      rw [hsplit, List.getLast?_concat]
    rw [hold, hpiece, lastOr_append, lastOr_append, lastOr_append, lastOr_append, lastOr, lastOr, lastOr, lastOr,
      lastOr, lastOr, hfits.last, hnew]
    rfl

/-- A tag of the new text is the element of a conversion, or has been a tag of the old text. -/
theorem exists_tagAlike {result : List Char} (htag : TagName tag) (hnew : AttributeName new)
    (h : Revised (HoldsElement new) [] all text result) {t' : OpeningTag} (ht' : t' ∈ openingTags result tag) :
    t'.attributes = [] ∨ ∃ t ∈ openingTags text tag,
      List.Forall₂ (AttributeAlike new all) t.attributes t'.attributes := by
  have hlt := h.starts_lt
  have htracks : Tracks [] 0 all text result := (h.imp fun hfits => hfits.mute).tracks formed_nil
  obtain ⟨front', rest', items', hat⟩ := exists_tagAt ht'
  have hresult := hat.text_eq
  subst hresult
  cases h.cutNew with
  | inside e lead covered behind before x y behind' htext _ hy _ hrest hfits =>
    obtain ⟨component, hmember, heq⟩ := hfits.text
    exact .inl (hat.attributes_of_heldElement htag hnew hmember (heq.symm.trans htext) hy hrest)
  | kept piece rest hold hboth =>
    obtain ⟨left, right, hedits, hbefore, hbehind, hends⟩ := hboth
    refine .inr ?_
    have hleft := hbefore.cursor_le
    have hpending : Pending new all piece right rest ('<' :: (tag ++ rest')) := by
      refine ⟨hbehind, fun e he => ?_⟩
      rw [hedits] at he
      exact (List.mem_append.1 he).elim (fun he => .inr (by have := hleft e he; simpa using this.2.2)) .inl
    obtain ⟨more, rfl, hmore⟩ := hpending.keep_char (by decide)
    have hright := hmore.revised.replaced.cursor_le
    obtain ⟨rest, rfl, hrest⟩ := hmore.keep_tagName htag hnew hat.ends
    have hlast : ∃ d ∈ ((piece ++ ['<']) ++ tag).getLast?, isAttributeChar d = true := by
      obtain ⟨d, hd⟩ := Option.ne_none_iff_exists'.1 (mt List.getLast?_eq_none_iff.1 htag.ne_nil)
      exact ⟨d, by rwa [getLast?_append_of_ne_nil _ htag.ne_nil], htag.chars d (List.mem_of_getLast? hd)⟩
    obtain ⟨items, stop, hbody, hattributes⟩ := hrest.exists_tagBody hnew hat.body
    have hlen : ((piece ++ ['<']) ++ tag).length = piece.length + 1 + tag.length := by
      simp only [List.length_append, List.length_singleton]
    rw [hlen] at hbody
    -- the tag stands in code in both texts
    have hcode : framesAfter [] piece ('<' :: (tag ++ rest)) = some [] := by
      have hlive := (getElem?_marks_eq_live_iff (by decide)).2 ⟨hat.code, rfl⟩
      rw [List.length_append, List.length_singleton] at hright
      rw [hedits] at htracks hlt
      rw [htracks.getElem?_marks_of_replaced hlt hold hbefore fun e he => (hright e he).1, hold] at hlive
      exact ((getElem?_marks_eq_live_iff (by decide)).1 hlive).1
    have hmem := mem_openingTags htag hcode (by rw [← hends.lastOr_eq]; exact hat.behind)
      (hat.ends.of_head (hrest.head?_eq hlast)) hbody.attributesFrom_eq
    rw [← hold] at hmem
    exact ⟨_, hmem, by rwa [hat.attributes]⟩

/-! ## Nothing is left to turn -/

/-- What begins at one place is turned into one element. -/
theorem eq_of_mem_conversions (htag : TagName tag) (hnew : AttributeName new) {d e : Edit}
    (hd : d ∈ conversions text tag old new) (he : e ∈ conversions text tag old new) (hstart : d.start = e.start) :
    d = e := by
  obtain ⟨t, -, -, a, -, -, component, hcomponent, rfl, front, covered, behind, hat⟩ :=
    exists_site_conversion htag hnew hd
  obtain ⟨t', -, -, a', -, -, component', hcomponent', rfl, front', covered', behind', hat'⟩ :=
    exists_site_conversion htag hnew he
  obtain ⟨rfl, hrest⟩ := List.append_inj (hat.site.text_eq.symm.trans hat'.site.text_eq)
    (hat.site.start_eq.symm.trans (hstart.trans hat'.site.start_eq))
  obtain ⟨-, hattr⟩ := hat.item.unique hat'.item hrest
  obtain rfl := Option.some_inj.1 hattr
  rw [Option.some_inj.1 (hcomponent.symm.trans hcomponent')]

theorem revised_holdsElement (htag : TagName tag) (hold : AttributeName old) (hnew : AttributeName new)
    (hlines : WithinLines text (conversions text tag old new)) :
    Revised (HoldsElement new) [] (carriedOut (conversions text tag old new)) text
      (convertAttribute text tag old new) := by
  refine revised_conversions htag hold hnew fun e he t _ a front covered behind hat => ?_
  have he := mem_of_mem_carriedOut he
  have hfeed := hlines e he
  rw [hat.site.between_eq] at hfeed
  obtain ⟨t', -, -, a', -, -, component, hcomponent, heq, front', covered', behind', hat'⟩ :=
    exists_site_conversion htag hnew he
  obtain ⟨_, _, _, _, -, -, -, -, -, hmember, -⟩ := hat'.item.exists_component hcomponent
  exact ⟨hat.mute hfeed, hat.behind_name, hat.last, ⟨a, hat.item⟩, component, hmember, by rw [heq]⟩

theorem exists_of_mem_forall₂ {α β : Type} {R : α → β → Prop} {as : List α} {bs : List β}
    (h : List.Forall₂ R as bs) {a : α} (ha : a ∈ as) : ∃ b ∈ bs, R a b := by
  induction h with
  | nil => cases ha
  | cons hab _ ih =>
    rcases List.mem_cons.1 ha with rfl | ha
    · exact ⟨_, List.mem_cons_self, hab⟩
    · obtain ⟨b, hb, h⟩ := ih ha
      exact ⟨b, List.mem_cons_of_mem _ hb, h⟩

/-- Turning an attribute that names a component into one that holds an element, in any text where no attribute
that is turned has a line end in it: no tag of the result has such an attribute left, the tags apart that have the
new attribute already, and so a second run changes nothing. -/
theorem convertAttribute_complete (htag : TagName tag) (hold : AttributeName old) (hnew : AttributeName new)
    (hlines : WithinLines text (conversions text tag old new)) :
    let result := convertAttribute text tag old new
    (∀ t ∈ openingTags result tag, t.takes old new → ∀ a ∈ t.attributes, a.name = old → namedComponent? a = none) ∧
      convertAttribute result tag old new = result := by
  intro result
  have hrevised := revised_holdsElement htag hold hnew hlines
  have hnone : ∀ t ∈ openingTags result tag, t.takes old new → ∀ a ∈ t.attributes, a.name = old →
      namedComponent? a = none := by
    intro t' ht' htakes' a' ha' hname'
    by_contra hsome
    obtain ⟨component, hcomponent⟩ := Option.ne_none_iff_exists'.1 hsome
    rcases exists_tagAlike htag hnew hrevised ht' with hempty | ⟨t, ht, halike⟩
    · rw [hempty] at ha'
      cases ha'
    obtain ⟨a, ha, hattr⟩ := exists_of_mem_forall₂ halike.flip ha'
    have htakes : t.takes old new := by
      refine htakes'.imp_right fun hno b hb => ?_
      obtain ⟨b', hb', hattr'⟩ := exists_of_mem_forall₂ halike hb
      cases hattr' with
      | converted hname _ => exact absurd hname (hno b' hb')
      | kept hname _ _ => rw [← hname]; exact hno b' hb'
    cases hattr with
    | converted _ hvalue => exact hsome hvalue
    | kept hname hvalue hapart =>
      -- the attribute was to be turned, and no edit stood in the way
      have hmem : (⟨a.start, a.stop, heldElement new component⟩ : Edit) ∈ conversions text tag old new :=
        mem_conversions_iff.2 ⟨t, ht, htakes, a, ha, hname.symm.trans hname', component, hvalue _ hcomponent, rfl⟩
      have hcarried := mem_carriedOut_of_boundary hmem
        (fun d hd hstart => eq_of_mem_conversions htag hnew hd hmem hstart) fun d hd hlt => by
          have := hapart d hd
          dsimp only at hlt ⊢
          omega
      have hlt := hrevised.starts_lt _ hcarried
      have := hapart _ hcarried
      dsimp only at hlt this
      omega
  refine ⟨hnone, ?_⟩
  have hempty : conversions result tag old new = [] := by
    refine List.eq_nil_iff_forall_not_mem.2 fun e he => ?_
    obtain ⟨t, ht, htakes, a, ha, hname, component, hcomponent, -⟩ := mem_conversions_iff.1 he
    rw [hnone t ht htakes a ha hname] at hcomponent
    cases hcomponent
  rw [convertAttribute_eq htag hold hnew, hempty, splice_nil]

theorem convertAttribute_complete_sample :
    let text := "<A c=\x7bD\x7d x=\x7b<A c=\x7bE.F\x7d />\x7d />".toList
    let result := "<A d=\x7b<D />\x7d x=\x7b<A d=\x7b<E.F />\x7d />\x7d />".toList
    WithinLines text (conversions text "A".toList "c".toList "d".toList) ∧
      convertAttribute text "A".toList "c".toList "d".toList = result ∧
      convertAttribute result "A".toList "c".toList "d".toList = result := by
  have htag : TagName "A".toList := ⟨by decide, List.all_iff_forall_prop.1 (by decide)⟩
  have hold : AttributeName "c".toList := by decide
  have hnew : AttributeName "d".toList := by decide
  have hconversions : conversions "<A c=\x7bD\x7d x=\x7b<A c=\x7bE.F\x7d />\x7d />".toList "A".toList "c".toList
      "d".toList = [⟨3, 8, "d=\x7b<D />\x7d".toList⟩, ⟨15, 22, "d=\x7b<E.F />\x7d".toList⟩] := by decide +kernel
  have hresult : convertAttribute "<A c=\x7bD\x7d x=\x7b<A c=\x7bE.F\x7d />\x7d />".toList "A".toList "c".toList
      "d".toList = "<A d=\x7b<D />\x7d x=\x7b<A d=\x7b<E.F />\x7d />\x7d />".toList := by
    rw [convertAttribute_eq htag hold hnew, hconversions, splice_of_perm (.refl _) (by decide)]
    decide +kernel
  have hlines : WithinLines "<A c=\x7bD\x7d x=\x7b<A c=\x7bE.F\x7d />\x7d />".toList (conversions
      "<A c=\x7bD\x7d x=\x7b<A c=\x7bE.F\x7d />\x7d />".toList "A".toList "c".toList "d".toList) := by
    rw [hconversions]
    decide
  have hstable := (convertAttribute_complete htag hold hnew hlines).2
  rw [hresult] at hstable
  exact ⟨hlines, hresult, hstable⟩

end Codemod.Source
