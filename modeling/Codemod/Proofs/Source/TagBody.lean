import Codemod.Proofs.Source.Neutral
import Codemod.Proofs.Source.Declaration

/-! What stands between the name of an opening tag and its end, item by item. The reader of attributes
reads exactly the texts that are built up of items, and each item leaves no trace in the reader of literals
and brackets. -/
namespace Codemod.Source
open Text

/-! ## Items of a tag -/

/-- The name of an attribute. -/
structure AttributeName (name : List Char) : Prop where
  start : ∃ c ∈ name.head?, isNameStart c = true
  chars : ∀ c ∈ name, isAttributeChar c = true

instance (name : List Char) : Decidable (AttributeName name) :=
  decidable_of_iff (name.head?.any isNameStart = true ∧ name.all isAttributeChar = true)
    ⟨fun h => ⟨(Option.any_eq_true _ _).1 h.1, List.all_eq_true.1 h.2⟩,
      fun h => ⟨(Option.any_eq_true _ _).2 h.start, List.all_eq_true.2 h.chars⟩⟩

/-- An attribute, or a braced item that is none, in a tag: the offsets at which the blanks in front of it
begin and at which it ends. -/
structure TagItem where
  lead : Nat
  stop : Nat
  attr : Option Attribute

/-- The name of an attribute up to its value. -/
def IsLabel (name label : List Char) : Prop :=
  AttributeName name ∧ ∃ gap gap', label = name ++ (gap ++ '=' :: gap') ∧
    (∀ c ∈ gap, isBlank c = true) ∧ ∀ c ∈ gap', isBlank c = true

/-- The text `body` is read as the item at the offset `pos`, when `rest` follows. -/
inductive IsItem : Nat → List Char → List Char → TagItem → Prop
  | spread {pos : Nat} {gap inner rest : List Char} (blank : ∀ c ∈ gap, isBlank c = true)
      (closes : bracketExtent? '{' (inner ++ rest) = some inner.length) :
      IsItem pos (gap ++ '{' :: inner) rest
        ⟨pos, pos + (gap ++ '{' :: inner).length, none⟩
  | flag {pos : Nat} {gap name rest : List Char} (blank : ∀ c ∈ gap, isBlank c = true)
      (named : AttributeName name) (ends : ∀ c ∈ rest.head?, isAttributeChar c = false)
      (bare : (trimLeft rest).head? ≠ some '=') :
      IsItem pos (gap ++ name) rest ⟨pos, pos + (gap ++ name).length,
        some ⟨name, none, pos + gap.length, pos + (gap ++ name).length⟩⟩
  | quoted {pos : Nat} {gap name label body rest : List Char} {quote : Char}
      (blank : ∀ c ∈ gap, isBlank c = true) (labelled : IsLabel name label)
      (quotes : isQuote quote = true) (ends : quote ∉ body) :
      IsItem pos (gap ++ (label ++ quote :: (body ++ [quote]))) rest
        ⟨pos, pos + (gap ++ (label ++ quote :: (body ++ [quote]))).length,
          some ⟨name, some (quote :: (body ++ [quote])), pos + gap.length,
            pos + (gap ++ (label ++ quote :: (body ++ [quote]))).length⟩⟩
  | braced {pos : Nat} {gap name label inner rest : List Char} (blank : ∀ c ∈ gap, isBlank c = true)
      (labelled : IsLabel name label)
      (closes : bracketExtent? '{' (inner ++ rest) = some inner.length) :
      IsItem pos (gap ++ (label ++ '{' :: inner)) rest
        ⟨pos, pos + (gap ++ (label ++ '{' :: inner)).length,
          some ⟨name, some ('{' :: inner), pos + gap.length,
            pos + (gap ++ (label ++ '{' :: inner)).length⟩⟩

/-- The text from the offset `pos` on goes on with these items, and the tag ends at the offset `stop`. -/
inductive TagBody : Nat → List Char → List TagItem → Nat → Prop
  | close {pos : Nat} {gap finish rest : List Char} (blank : ∀ c ∈ gap, isBlank c = true)
      (finishes : finish = ['>'] ∨ finish = ['/', '>']) :
      TagBody pos (gap ++ (finish ++ rest)) [] (pos + (gap ++ finish).length)
  | item {pos stop : Nat} {body rest : List Char} {item : TagItem} {items : List TagItem}
      (first : IsItem pos body rest item) (later : TagBody item.stop rest items stop) :
      TagBody pos (body ++ rest) (item :: items) stop

theorem IsItem.eq_mk {pos : Nat} {body rest : List Char} {item : TagItem} (h : IsItem pos body rest item) :
    item = ⟨pos, pos + body.length, item.attr⟩ := by
  cases h <;> rfl

theorem IsItem.stop_eq {pos : Nat} {body rest : List Char} {item : TagItem} (h : IsItem pos body rest item) :
    item.stop = pos + body.length := by
  cases h <;> rfl

/-! ## Characters of names -/

theorem isAttributeChar_of_isNameStart {c : Char} (h : isNameStart c = true) : isAttributeChar c = true := by
  simp [isAttributeChar, isIdentifier_of_isNameStart h]

theorem isNameStart_of_isBlank {c : Char} (h : isBlank c = true) : isNameStart c = false := by
  by_contra hstart
  have hchar := isAttributeChar_of_isNameStart (by simpa using hstart)
  rw [isAttributeChar_of_isBlank h] at hchar
  cases hchar

theorem isBlank_eq_false_of_isNameStart {c : Char} (h : isNameStart c = true) : isBlank c = false := by
  by_contra hblank
  have hstart := isNameStart_of_isBlank (by simpa using hblank)
  rw [h] at hstart
  cases hstart

theorem AttributeName.exists_cons {name : List Char} (h : AttributeName name) :
    ∃ c tail, name = c :: tail ∧ isNameStart c = true ∧ ∀ d ∈ tail, isAttributeChar d = true := by
  obtain ⟨c, hc, hstart⟩ := h.start
  obtain ⟨tail, rfl⟩ := List.head?_eq_some_iff.1 hc
  exact ⟨c, tail, rfl, hstart, fun d hd => h.chars d (by simp [hd])⟩

/-! ## The reader of attributes -/

theorem attributesFrom_cons {gap : List Char} (hgap : ∀ c ∈ gap, isBlank c = true) {c : Char}
    (hc : isBlank c = false) (pos : Nat) (rest : List Char) :
    attributesFrom pos (gap ++ c :: rest) =
      if c = '>' then some ([], pos + gap.length + 1)
      else if c = '/' && rest.head? == some '>' then some ([], pos + gap.length + 2)
      else if c = '{' then (bracketExtent? '{' rest).bind fun n =>
        attributesFrom (pos + gap.length + 1 + n) (rest.drop n)
      else if isNameStart c then (readAttribute? (pos + gap.length) c rest).bind fun a =>
        (attributesFrom a.stop (rest.drop (a.stop - (pos + gap.length + 1)))).map fun found =>
          (a :: found.1, found.2)
      else none := by
  have htake : (gap ++ c :: rest).takeWhile isBlank = gap :=
    takeWhile_span hgap (by simpa using hc)
  have hdrop : (gap ++ c :: rest).drop ((gap ++ c :: rest).takeWhile isBlank).length = c :: rest := by
    rw [htake, List.drop_left]
  rw [attributesFrom]
  dsimp only
  split
  · next hnil =>
    rw [hdrop] at hnil
    cases hnil
  · next c' rest' hcons =>
    rw [hdrop] at hcons
    obtain ⟨rfl, rfl⟩ := List.cons.inj hcons
    rw [htake]
    cases bracketExtent? '{' rest <;> cases readAttribute? (pos + gap.length) c rest <;> rfl

/-- Where a name begins, an attribute is read. -/
theorem attributesFrom_name {gap : List Char} (hgap : ∀ c ∈ gap, isBlank c = true) {c : Char}
    (hc : isNameStart c = true) (pos : Nat) (rest : List Char) :
    attributesFrom pos (gap ++ c :: rest) = (readAttribute? (pos + gap.length) c rest).bind fun a =>
      (attributesFrom a.stop (rest.drop (a.stop - (pos + gap.length + 1)))).map fun found =>
        (a :: found.1, found.2) := by
  have hne {d : Char} (hd : isNameStart d = false) : c ≠ d := by
    rintro rfl
    rw [hc] at hd
    cases hd
  rw [attributesFrom_cons hgap (isBlank_eq_false_of_isNameStart hc), if_neg (hne (by decide)),
    if_neg (by simp [hne (d := '/') (by decide)]), if_neg (hne (by decide)), if_pos hc]

/-- An attribute behind its name: a flag, or a value behind an equals sign. -/
theorem readAttribute?_eq {tail rest : List Char} (htail : ∀ c ∈ tail, isAttributeChar c = true)
    (hrest : ∀ c ∈ rest.head?, isAttributeChar c = false) (pos : Nat) (c : Char) :
    readAttribute? pos c (tail ++ rest) =
      match trimLeft rest with
      | '=' :: value => (valueLength? (trimLeft value)).map fun n =>
          ⟨c :: tail, some ((trimLeft value).take n), pos, pos + 1 + tail.length +
            ((rest.takeWhile isBlank).length + 1 + (value.takeWhile isBlank).length + n)⟩
      | _ => some ⟨c :: tail, none, pos, pos + 1 + tail.length⟩ := by
  have htake : (tail ++ rest).takeWhile isAttributeChar = tail := takeWhile_span htail hrest
  unfold readAttribute?
  simp only [htake, List.drop_left, drop_length_takeWhile, Nat.add_zero]
  rfl

theorem valueLength?_quoted {quote : Char} (hquote : isQuote quote = true) {body : List Char}
    (hbody : quote ∉ body) (rest : List Char) :
    valueLength? (quote :: (body ++ [quote]) ++ rest) = some (quote :: (body ++ [quote])).length := by
  have hindex : ((body ++ [quote]) ++ rest).idxOf? quote = some body.length := by
    rw [List.append_assoc]
    exact idxOf?_append hbody
  rw [List.cons_append, valueLength?, if_pos hquote, hindex]
  simp

theorem valueLength?_braced {inner rest : List Char}
    (h : bracketExtent? '{' (inner ++ rest) = some inner.length) :
    valueLength? ('{' :: inner ++ rest) = some ('{' :: inner).length := by
  rw [List.cons_append, valueLength?, if_neg (by decide), if_pos rfl, h]
  rfl

/-- A value is read behind its label. -/
theorem IsLabel.readAttribute?_eq {name label : List Char} (h : IsLabel name label) {d : Char}
    (hd : isBlank d = false) {value rest : List Char}
    (hlen : valueLength? (d :: value ++ rest) = some (d :: value).length) :
    ∃ behind, label = name ++ behind ∧ ∀ pos c tail, name = c :: tail →
      readAttribute? pos c (tail ++ (behind ++ (d :: value ++ rest))) =
        some ⟨name, some (d :: value), pos, pos + (label ++ d :: value).length⟩ := by
  obtain ⟨hn, gap, gap', rfl, hgap, hgap'⟩ := h
  refine ⟨gap ++ '=' :: gap', rfl, ?_⟩
  rintro pos c tail rfl
  have hends : ∀ b ∈ ((gap ++ '=' :: gap') ++ (d :: value ++ rest)).head?, isAttributeChar b = false := by
    cases gap with
    | nil =>
      rintro b ⟨⟩
      decide
    | cons b gap =>
      rintro _ ⟨⟩
      exact isAttributeChar_of_isBlank (hgap b (by simp))
  have hequals : isBlank '=' = false := by decide
  have hvalue : ∀ b ∈ (d :: value ++ rest).head?, isBlank b = false := by
    rintro _ ⟨⟩
    exact hd
  have htrim : trimLeft ((gap ++ '=' :: gap') ++ (d :: value ++ rest)) =
      '=' :: (gap' ++ (d :: value ++ rest)) := by
    rw [List.append_assoc, List.cons_append]
    exact dropWhile_span hgap (by simpa using hequals)
  have htrim' : trimLeft (gap' ++ (d :: value ++ rest)) = d :: value ++ rest := dropWhile_span hgap' hvalue
  have htake : (((gap ++ '=' :: gap') ++ (d :: value ++ rest)).takeWhile isBlank).length = gap.length := by
    rw [List.append_assoc, List.cons_append, takeWhile_span hgap (by simpa using hequals)]
  have htake' : ((gap' ++ (d :: value ++ rest)).takeWhile isBlank).length = gap'.length := by
    rw [takeWhile_span hgap' hvalue]
  rw [Source.readAttribute?_eq (fun b hb => hn.chars b (by simp [hb])) hends, htrim]
  simp only [htrim']
  rw [hlen, htake, htake', Option.map_some, List.take_left]
  simp only [List.length_append, List.length_cons, Option.some_inj, Attribute.mk.injEq, true_and]
  omega

/-- An attribute is read behind the blanks in front of it. -/
theorem IsItem.readAttribute?_eq {pos stop : Nat} {body rest : List Char} {a : Attribute}
    (h : IsItem pos body rest ⟨pos, stop, some a⟩) : ∃ gap c cs, body = gap ++ c :: cs ∧
      (∀ b ∈ gap, isBlank b = true) ∧ isNameStart c = true ∧
      readAttribute? (pos + gap.length) c (cs ++ rest) = some a ∧ a.stop = pos + body.length := by
  have hlabelled {gap name label : List Char} (hgap : ∀ b ∈ gap, isBlank b = true)
      (hlabel : IsLabel name label) {d : Char} (hd : isBlank d = false) {value : List Char}
      (hlen : valueLength? (d :: value ++ rest) = some (d :: value).length) :
      ∃ gap' c cs, gap ++ (label ++ d :: value) = gap' ++ c :: cs ∧ (∀ b ∈ gap', isBlank b = true) ∧
        isNameStart c = true ∧ readAttribute? (pos + gap'.length) c (cs ++ rest) =
          some ⟨name, some (d :: value), pos + gap.length, pos + (gap ++ (label ++ d :: value)).length⟩ := by
    obtain ⟨behind, rfl, hread⟩ := hlabel.readAttribute?_eq hd hlen
    obtain ⟨c, tail, rfl, hc, -⟩ := hlabel.1.exists_cons
    refine ⟨gap, c, tail ++ (behind ++ d :: value), by simp, hgap, hc, ?_⟩
    have heq := hread (pos + gap.length) c tail rfl
    have hadd (cs : List Char) : (gap ++ cs).length = gap.length + cs.length := List.length_append
    rw [List.append_assoc, List.append_assoc, heq, hadd, Nat.add_assoc]
  cases h with
  | @flag gap name _ hgap hname hends hbare =>
    obtain ⟨c, tail, rfl, hc, htail⟩ := hname.exists_cons
    refine ⟨gap, c, tail, rfl, hgap, hc, ?_, rfl⟩
    rw [Source.readAttribute?_eq htail hends]
    split
    · next heq =>
      rw [heq] at hbare
      exact absurd rfl hbare
    · simp only [List.length_append, List.length_cons, Option.some_inj, Attribute.mk.injEq, true_and]
      omega
  | @quoted gap name label body _ quote hgap hlabel hquote hends =>
    obtain ⟨gap', c, cs, hbody, hblank, hc, hread⟩ := hlabelled hgap hlabel
      (isBlank_eq_false_of_isQuote hquote) (valueLength?_quoted hquote hends rest)
    exact ⟨gap', c, cs, hbody, hblank, hc, hread, rfl⟩
  | @braced gap name label inner _ hgap hlabel hcloses =>
    obtain ⟨gap', c, cs, hbody, hblank, hc, hread⟩ := hlabelled hgap hlabel (by decide)
      (valueLength?_braced hcloses)
    exact ⟨gap', c, cs, hbody, hblank, hc, hread, rfl⟩

/-- At the end of a tag no attributes are left. -/
theorem attributesFrom_close {gap finish : List Char} (hgap : ∀ c ∈ gap, isBlank c = true)
    (hfinish : finish = ['>'] ∨ finish = ['/', '>']) (pos : Nat) (rest : List Char) :
    attributesFrom pos (gap ++ (finish ++ rest)) = some ([], pos + (gap ++ finish).length) := by
  rcases hfinish with rfl | rfl
  · rw [List.singleton_append, attributesFrom_cons hgap (by decide), if_pos rfl, List.length_append]
    rfl
  · rw [List.cons_append, attributesFrom_cons hgap (by decide), if_neg (by decide), if_pos (by simp),
      List.length_append]
    rfl

/-- What an item adds to the attributes that are read. -/
theorem IsItem.attributesFrom_append {pos : Nat} {body rest : List Char} {item : TagItem}
    (h : IsItem pos body rest item) : attributesFrom pos (body ++ rest) =
      (attributesFrom item.stop rest).map fun found => (item.attr.toList ++ found.1, found.2) := by
  have hopen : isBlank '{' = false := by decide
  rw [h.stop_eq]
  rw [h.eq_mk] at h
  cases hattr : item.attr with
  | none =>
    rw [hattr] at h
    cases h with
    | @spread gap inner _ hgap hcloses =>
      rw [List.append_assoc, List.cons_append, attributesFrom_cons hgap hopen, if_neg (by decide),
        if_neg (by simp), if_pos rfl, hcloses, Option.bind_some, List.drop_left]
      simp only [Option.toList_none, List.nil_append, Option.map_id', List.length_append, List.length_cons]
      congr 1
      omega
  | some a =>
    rw [hattr] at h
    obtain ⟨gap, c, cs, rfl, hgap, hc, hread, hstop⟩ := h.readAttribute?_eq
    have hdrop : (cs ++ rest).drop (a.stop - (pos + gap.length + 1)) = rest := by
      refine List.drop_left' ?_
      rw [hstop, List.length_append, List.length_cons]
      omega
    rw [List.append_assoc, List.cons_append, attributesFrom_name hgap hc, hread, Option.bind_some, hdrop,
      ← hstop]
    rfl

theorem filterMap_attr_cons (item : TagItem) (items : List TagItem) :
    (item :: items).filterMap TagItem.attr = item.attr.toList ++ items.filterMap TagItem.attr := by
  rw [List.filterMap_cons]
  cases item.attr <;> rfl

/-- What is read of the items are their attributes. -/
theorem TagBody.attributesFrom_eq {pos stop : Nat} {cs : List Char} {items : List TagItem}
    (h : TagBody pos cs items stop) : attributesFrom pos cs = some (items.filterMap TagItem.attr, stop) := by
  induction h with
  | close hgap hfinish => exact attributesFrom_close hgap hfinish _ _
  | item hfirst _ ih =>
    rw [hfirst.attributesFrom_append, ih, filterMap_attr_cons]
    rfl

/-- A text is read as one item only. -/
theorem IsItem.unique {pos stop : Nat} {body rest body' rest' : List Char} {a : Attribute} {item : TagItem}
    (h : IsItem pos body rest ⟨pos, stop, some a⟩) (h' : IsItem pos body' rest' item)
    (heq : body ++ rest = body' ++ rest') : body' = body ∧ item.attr = some a := by
  obtain ⟨gap, c, cs, rfl, hgap, hc, hread, hstop⟩ := h.readAttribute?_eq
  rw [h'.eq_mk] at h'
  rw [List.append_assoc, List.cons_append] at heq
  have hhead : ∀ b ∈ (c :: (cs ++ rest)).head?, isBlank b = false := by
    rintro b ⟨⟩
    exact isBlank_eq_false_of_isNameStart hc
  cases hattr : item.attr with
  | none =>
    rw [hattr] at h'
    cases h' with
    | @spread gap' inner _ hgap' _ =>
      rw [List.append_assoc, List.cons_append] at heq
      have hbrace : ∀ b ∈ ('{' :: (inner ++ rest')).head?, isBlank b = false := by
        rintro b ⟨⟩
        decide
      obtain ⟨-, hcons⟩ := span_unique hgap hgap' hhead hbrace heq
      rw [(List.cons.inj hcons).1] at hc
      cases hc
  | some a' =>
    rw [hattr] at h'
    obtain ⟨gap', c', cs', rfl, hgap', hc', hread', hstop'⟩ := h'.readAttribute?_eq
    rw [List.append_assoc, List.cons_append] at heq
    have hhead' : ∀ b ∈ (c' :: (cs' ++ rest')).head?, isBlank b = false := by
      rintro b ⟨⟩
      exact isBlank_eq_false_of_isNameStart hc'
    obtain ⟨rfl, hcons⟩ := span_unique hgap hgap' hhead hhead' heq
    obtain ⟨rfl, hrest⟩ := List.cons.inj hcons
    rw [hrest, hread'] at hread
    obtain rfl := Option.some_inj.1 hread
    refine ⟨?_, rfl⟩
    have hlen : cs'.length = cs.length := by
      rw [hstop, List.length_append, List.length_append, List.length_cons, List.length_cons] at hstop'
      omega
    rw [(List.append_inj hrest hlen.symm).1]

/-- A value that is read is quoted or braced. -/
theorem exists_of_valueLength? {cs : List Char} {n : Nat} (h : valueLength? cs = some n) :
    ∃ value rest, cs = value ++ rest ∧ n = value.length ∧
      ((∃ quote body, value = quote :: (body ++ [quote]) ∧ isQuote quote = true ∧ quote ∉ body) ∨
        ∃ inner, value = '{' :: inner ∧ bracketExtent? '{' (inner ++ rest) = some inner.length) := by
  cases cs with
  | nil => cases h
  | cons c cs =>
    rw [valueLength?] at h
    split at h
    · next hquote =>
      obtain ⟨i, hi, rfl⟩ := Option.map_eq_some_iff.1 h
      obtain ⟨body, rest, rfl, hbody, rfl⟩ := exists_of_idxOf? hi
      exact ⟨c :: (body ++ [c]), rest, by simp, by simp, .inl ⟨c, body, rfl, hquote, hbody⟩⟩
    · obtain ⟨rfl, h⟩ := Option.ite_none_right_eq_some.1 h
      obtain ⟨m, hm, rfl⟩ := Option.map_eq_some_iff.1 h
      have hlen : (cs.take m).length = m := List.length_take_of_le (bracketExtent?_le hm).2
      refine ⟨'{' :: cs.take m, cs.drop m, by simp, by simp [hlen], .inr ⟨cs.take m, rfl, ?_⟩⟩
      rw [List.take_append_drop, hlen, hm]

/-- An attribute that is read is an item. -/
theorem exists_item_of_readAttribute? {gap : List Char} (hgap : ∀ c ∈ gap, isBlank c = true) {pos : Nat}
    {c : Char} (hc : isNameStart c = true) {cs : List Char} {a : Attribute}
    (h : readAttribute? (pos + gap.length) c cs = some a) :
    ∃ body rest item, gap ++ c :: cs = body ++ rest ∧ IsItem pos body rest item ∧ item.attr = some a ∧
      a.stop = pos + body.length ∧ gap.length < body.length := by
  obtain ⟨tail, behind, rfl, htail, hbehind⟩ := exists_span isAttributeChar cs
  have hname : AttributeName (c :: tail) := by
    refine ⟨⟨c, rfl, hc⟩, fun d hd => ?_⟩
    rcases List.mem_cons.1 hd with rfl | hd
    · exact isAttributeChar_of_isNameStart hc
    · exact htail d hd
  rw [readAttribute?_eq htail hbehind] at h
  split at h
  · next value hvalue =>
    obtain ⟨n, hn, rfl⟩ := Option.map_eq_some_iff.1 h
    obtain ⟨gap', hsplit, hgap'⟩ := exists_trimLeft behind
    obtain ⟨gap'', hsplit', hgap''⟩ := exists_trimLeft value
    obtain ⟨text, rest, htext, rfl, hform⟩ := exists_of_valueLength? hn
    have hlabel : IsLabel (c :: tail) (c :: tail ++ (gap' ++ '=' :: gap'')) :=
      ⟨hname, gap', gap'', rfl, hgap', hgap''⟩
    have hequals : isBlank '=' = false := by decide
    have htake : behind.takeWhile isBlank = gap' := by
      rw [hsplit, hvalue]
      exact takeWhile_span hgap' (by simpa using hequals)
    have htake' : value.takeWhile isBlank = gap'' := by
      rw [hsplit', htext]
      refine takeWhile_span hgap'' fun b hb => ?_
      rcases hform with ⟨quote, body, rfl, hquote, -⟩ | ⟨inner, rfl, -⟩
      · cases hb
        exact isBlank_eq_false_of_isQuote hquote
      · cases hb
        decide
    have hbody : gap ++ c :: (tail ++ behind) =
        (gap ++ ((c :: tail ++ (gap' ++ '=' :: gap'')) ++ text)) ++ rest := by
      rw [hsplit, hvalue, hsplit', htext]
      simp
    have hread : (⟨c :: tail, some ((trimLeft value).take text.length), pos + gap.length,
        pos + gap.length + 1 + tail.length + ((behind.takeWhile isBlank).length + 1 +
          (value.takeWhile isBlank).length + text.length)⟩ : Attribute) =
        ⟨c :: tail, some text, pos + gap.length,
          pos + (gap ++ ((c :: tail ++ (gap' ++ '=' :: gap'')) ++ text)).length⟩ := by
      rw [htext, List.take_left, htake, htake']
      simp only [List.length_append, List.length_cons, Attribute.mk.injEq, true_and]
      omega
    rw [hbody, hread]
    have hlen : gap.length < (gap ++ ((c :: tail ++ (gap' ++ '=' :: gap'')) ++ text)).length := by simp
    rcases hform with ⟨quote, body, rfl, hquote, hends⟩ | ⟨inner, rfl, hcloses⟩
    · exact ⟨_, rest, _, rfl, .quoted hgap hlabel hquote hends, rfl, rfl, hlen⟩
    · exact ⟨_, rest, _, rfl, .braced hgap hlabel hcloses, rfl, rfl, hlen⟩
  · next hno =>
    have hread : (⟨c :: tail, none, pos + gap.length, pos + gap.length + 1 + tail.length⟩ : Attribute) =
        ⟨c :: tail, none, pos + gap.length, pos + (gap ++ c :: tail).length⟩ := by
      simp only [List.length_append, List.length_cons, Attribute.mk.injEq, true_and]
      omega
    rw [hread] at h
    cases h
    refine ⟨gap ++ c :: tail, behind, _, by simp, .flag hgap hname hbehind fun hequals => ?_, rfl, rfl, by simp⟩
    obtain ⟨value, hvalue⟩ := List.head?_eq_some_iff.1 hequals
    exact hno value hvalue

/-- What is read of a tag are its items. -/
theorem exists_tagBody {pos stop : Nat} {cs : List Char} {as : List Attribute}
    (h : attributesFrom pos cs = some (as, stop)) :
    ∃ items, TagBody pos cs items stop ∧ as = items.filterMap TagItem.attr := by
  have hblank (cs : List Char) : ∀ c ∈ cs.takeWhile isBlank, isBlank c = true :=
    fun c hc => List.mem_takeWhile_imp hc
  have hsplit {cs rest : List Char} {c : Char}
      (hcons : cs.drop (cs.takeWhile isBlank).length = c :: rest) :
      cs = cs.takeWhile isBlank ++ c :: rest := by
    rw [← hcons, drop_length_takeWhile, List.takeWhile_append_dropWhile]
  fun_induction attributesFrom pos cs generalizing as stop with
  | case5 pos cs gap rest n hextent hcons _ _ =>
    rename_i ih
    have hlen : (rest.take n).length = n := List.length_take_of_le (bracketExtent?_le hextent).2
    have hstop : pos + (cs.takeWhile isBlank ++ '{' :: rest.take n).length = pos + gap + 1 + n := by
      simp only [List.length_append, List.length_cons, hlen]
      omega
    obtain ⟨items, hbody, rfl⟩ := ih h
    rw [← hstop] at hbody
    have hcloses : bracketExtent? '{' (rest.take n ++ rest.drop n) = some (rest.take n).length := by
      rw [List.take_append_drop, hlen, hextent]
    have hfirst := @IsItem.spread pos _ _ _ (hblank cs) hcloses
    have htext : cs = (cs.takeWhile isBlank ++ '{' :: rest.take n) ++ rest.drop n := by
      rw [List.append_assoc, List.cons_append, List.take_append_drop, ← hsplit hcons]
    have hwhole := TagBody.item hfirst hbody
    rw [← htext] at hwhole
    exact ⟨_, hwhole, rfl⟩
  | case7 pos cs gap c rest hcons _ _ _ hc a ha =>
    rename_i ih
    obtain ⟨⟨as, stop⟩, hlater, heq⟩ := Option.map_eq_some_iff.1 h
    cases heq
    obtain ⟨items, hbody, rfl⟩ := ih hlater
    obtain ⟨body, behind, item, htext, hitem, hattr, hstop, hlen⟩ :=
      exists_item_of_readAttribute? (hblank cs) hc ha
    rw [← hsplit hcons] at htext
    have hbehind : rest.drop (a.stop - (pos + gap + 1)) = behind := by
      have hdrop : rest = cs.drop (gap + 1) := by
        rw [← List.drop_drop, hcons, List.drop_one, List.tail_cons]
      rw [hdrop, List.drop_drop, hstop, htext]
      refine List.drop_left' ?_
      omega
    rw [hbehind, hstop, ← hitem.stop_eq] at hbody
    refine ⟨item :: items, ?_, ?_⟩
    · rw [htext]
      exact .item hitem hbody
    · rw [filterMap_attr_cons, hattr]
      rfl
  | case2 pos cs gap rest =>
    rename_i hcons
    cases h
    have hclose := @TagBody.close pos _ _ rest (hblank cs) (.inl rfl)
    rw [List.singleton_append, ← hsplit hcons, List.length_append] at hclose
    exact ⟨[], hclose, rfl⟩
  | case3 pos cs gap c rest hcons _ =>
    rename_i hslash
    cases h
    simp only [Bool.and_eq_true, decide_eq_true_eq, beq_iff_eq] at hslash
    obtain ⟨rfl, hhead⟩ := hslash
    obtain ⟨behind, rfl⟩ := List.head?_eq_some_iff.1 hhead
    have hclose := @TagBody.close pos _ _ behind (hblank cs) (.inr rfl)
    rw [List.cons_append, List.singleton_append, ← hsplit hcons, List.length_append] at hclose
    exact ⟨[], hclose, rfl⟩
  | case1 => cases h
  | case4 => cases h
  | case6 => cases h
  | case8 => cases h

end Codemod.Source
