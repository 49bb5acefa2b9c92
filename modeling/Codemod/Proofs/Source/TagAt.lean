import Codemod.Proofs.Source.LineEnd.Markup
import Codemod.Proofs.Source.TagBody

/-! The opening tags of a text with their items, and what the reader of literals and brackets makes of them:
an item whose quoted value closes on its line leaves no trace. -/
namespace Codemod.Source
open Text

/-! ## Items of a tag in code -/

/-- The value of the attribute, if it is quoted, closes as a literal where it ends. -/
def Attribute.closes (a : Attribute) : Bool :=
  match a.value with
  | some (c :: rest) => !isQuote c || closesOnLine c rest
  | _ => true

theorem inertFrames_of_isBlank {c : Char} (h : isBlank c = true) (rest : List Char) :
    inertFrames c rest = [] := by
  have hne {d : Char} (hd : isBlank d = false) : c ≠ d := by
    rintro rfl
    rw [h] at hd
    cases hd
  have hslash : c ≠ '/' := hne (by decide)
  have hsingle : c ≠ '\'' := hne (by decide)
  have hdouble : c ≠ '"' := hne (by decide)
  have htick : c ≠ '`' := hne (by decide)
  simp [inertFrames, quoteFrames, isQuote, hslash, hsingle, hdouble, htick]

/-- A character that stands in a tag in front of, between and behind names. -/
def isTagChar (c : Char) : Bool := isBlank c || isAttributeChar c || c == '='

theorem inertFrames_of_isTagChar {c : Char} (h : isTagChar c = true) (rest : List Char) :
    inertFrames c rest = [] := by
  rcases Bool.or_eq_true_iff.1 h with h | h
  · rcases Bool.or_eq_true_iff.1 h with h | h
    · exact inertFrames_of_isBlank h rest
    · exact inertFrames_of_isAttributeChar h rest
  · obtain rfl : c = '=' := by simpa using h
    rfl

theorem isBracket_eq_false {c : Char} (h : c ∉ ['(', ')', '[', ']', '{', '}']) : isBracket c = false := by
  simp only [List.mem_cons, List.not_mem_nil, or_false, not_or] at h
  obtain ⟨hround, hround', hsquare, hsquare', hbrace, hbrace'⟩ := h
  have hopen : closer? c = none := by simp only [closer?]
  simp [isBracket, isCloser, hopen, hround', hsquare', hbrace']

theorem isBracket_of_isTagChar {c : Char} (h : isTagChar c = true) : isBracket c = false := by
  refine isBracket_eq_false fun hm => ?_
  have hbrackets : ∀ d ∈ ['(', ')', '[', ']', '{', '}'], isTagChar d = false :=
    List.all_iff_forall_prop.1 (by decide)
  rw [hbrackets c hm] at h
  cases h

theorem isTagChar_of_isBlank {c : Char} (h : isBlank c = true) : isTagChar c = true := by
  simp [isTagChar, h]

theorem isTagChar_of_isAttributeChar {c : Char} (h : isAttributeChar c = true) : isTagChar c = true := by
  simp [isTagChar, h]

theorem neutral_of_isTagChar {cs : List Char} (h : ∀ c ∈ cs, isTagChar c = true) (rest : List Char) :
    Neutral cs rest := by
  refine neutral_plain ?_ fun c hc => isBracket_of_isTagChar (h c hc)
  induction cs with
  | nil => trivial
  | cons c cs ih =>
    exact ⟨inertFrames_of_isTagChar (h c (by simp)) _, ih fun d hd => h d (by simp [hd])⟩

/-- The end of a tag leaves no trace. -/
theorem neutral_close {gap finish : List Char} (hgap : ∀ c ∈ gap, isBlank c = true)
    (hfinish : finish = ['>'] ∨ finish = ['/', '>']) (rest : List Char) : Neutral (gap ++ finish) rest := by
  have hgreater : Neutral ['>'] rest := passes_char rfl (.inr (by decide))
  refine Neutral.append (neutral_of_isTagChar (fun c hc => isTagChar_of_isBlank (hgap c hc)) _) ?_
  rcases hfinish with rfl | rfl
  · exact hgreater
  · have hslash : Neutral ['/'] (['>'] ++ rest) := passes_char rfl (.inr (by decide))
    exact hslash.append hgreater

theorem IsLabel.isTagChar {name label : List Char} (h : IsLabel name label) :
    ∀ c ∈ label, isTagChar c = true := by
  obtain ⟨hname, gap, gap', rfl, hgap, hgap'⟩ := h
  intro c hc
  simp only [List.mem_append, List.mem_cons] at hc
  rcases hc with hc | hc | rfl | hc
  · exact isTagChar_of_isAttributeChar (hname.chars c hc)
  · exact isTagChar_of_isBlank (hgap c hc)
  · decide
  · exact isTagChar_of_isBlank (hgap' c hc)

/-- Behind an item the reader is where it was in front of it, if its quoted value closes. -/
theorem IsItem.neutral {pos : Nat} {body rest : List Char} {item : TagItem} (h : IsItem pos body rest item)
    (hcloses : ∀ a ∈ item.attr, a.closes = true) : Neutral body rest := by
  have hlead {gap label : List Char} (hgap : ∀ c ∈ gap, isBlank c = true)
      (hlabel : ∀ c ∈ label, isTagChar c = true) (tail : List Char) : Neutral (gap ++ label) tail := by
    refine neutral_of_isTagChar (fun c hc => ?_) tail
    exact (List.mem_append.1 hc).elim (fun hc => isTagChar_of_isBlank (hgap c hc)) (hlabel c)
  cases h with
  | @spread gap inner _ hgap hinner =>
    exact (neutral_of_isTagChar (fun c hc => isTagChar_of_isBlank (hgap c hc)) _).append
      (neutral_braced hinner)
  | @flag gap name _ hgap hname _ _ =>
    exact hlead hgap (fun c hc => isTagChar_of_isAttributeChar (hname.chars c hc)) rest
  | @quoted gap name label body _ quote hgap hlabel hquote hbody =>
    have hvalue : closesOnLine quote (body ++ [quote]) = true := by
      simpa [Attribute.closes, hquote] using hcloses _ rfl
    rw [← List.append_assoc]
    exact (hlead hgap hlabel.isTagChar _).append (neutral_quoted hquote hbody hvalue rest)
  | @braced gap name label inner _ hgap hlabel hinner =>
    rw [← List.append_assoc]
    exact (hlead hgap hlabel.isTagChar _).append (neutral_braced hinner)

/-- Behind the character a name or an item has ended, when `rest` follows. -/
def EndsItem (c : Char) (rest : List Char) : Prop :=
  isQuote c = true ∨ c = '}' ∨ (isAttributeChar c = true ∧ ∀ d ∈ rest.head?, isAttributeChar d = false)

theorem getLast?_of_bracketExtent? {inner rest : List Char}
    (h : bracketExtent? '{' (inner ++ rest) = some inner.length) : inner.getLast? = some '}' := by
  have hpos := (bracketExtent?_le h).1
  have hlast : (inner ++ rest)[inner.length - 1]? = inner[inner.length - 1]? :=
    List.getElem?_append_left (by omega)
  rw [List.getLast?_eq_getElem?, ← hlast]
  exact getElem?_of_bracketExtent? rfl h

theorem endsItem_of_bracketExtent? {inner rest : List Char}
    (h : bracketExtent? '{' (inner ++ rest) = some inner.length) (front behind : List Char) :
    ∀ c ∈ (front ++ '{' :: inner).getLast?, EndsItem c behind := by
  intro c hc
  rw [List.getLast?_append, List.getLast?_cons, getLast?_of_bracketExtent? h] at hc
  exact .inr (.inl (Option.some_inj.1 hc).symm)

theorem getLast?_append_of_ne_nil (front : List Char) {cs : List Char} (h : cs ≠ []) :
    (front ++ cs).getLast? = cs.getLast? := by
  rw [List.getLast?_append, List.getLast?_eq_some_getLast h, Option.some_or]

theorem IsItem.endsItem {pos : Nat} {body rest : List Char} {item : TagItem} (h : IsItem pos body rest item) :
    ∀ c ∈ body.getLast?, EndsItem c rest := by
  cases h with
  | spread _ hinner => exact endsItem_of_bracketExtent? hinner _ rest
  | @flag gap name _ _ hname hends _ =>
    obtain ⟨d, tail, rfl, -⟩ := hname.exists_cons
    rw [getLast?_append_of_ne_nil gap (List.cons_ne_nil d tail)]
    exact fun c hc => .inr (.inr ⟨hname.chars c (List.mem_of_getLast? hc), hends⟩)
  | @quoted gap name label body _ quote _ _ hquote _ =>
    have hbody : gap ++ (label ++ quote :: (body ++ [quote])) =
        (gap ++ (label ++ quote :: body)) ++ [quote] := by simp
    rw [hbody, List.getLast?_concat]
    rintro c ⟨⟩
    exact .inl hquote
  | braced _ _ hinner =>
    rw [← List.append_assoc]
    exact endsItem_of_bracketExtent? hinner _ rest

/-- The items of a tag in two parts: behind the first ones the text goes on with the others. -/
theorem TagBody.exists_split {pos stop : Nat} {cs : List Char} {items later : List TagItem}
    (h : TagBody pos cs (items ++ later) stop) : ∃ front rest, cs = front ++ rest ∧
      TagBody (pos + front.length) rest later stop ∧ (∀ c ∈ front.getLast?, EndsItem c rest) ∧
      ((∀ item ∈ items, ∀ a ∈ item.attr, a.closes = true) → Neutral front rest) := by
  induction items generalizing pos cs with
  | nil => exact ⟨[], cs, rfl, h, by simp, fun _ => neutral_nil cs⟩
  | cons item items ih =>
    cases h with
    | @item _ _ body rest _ _ hfirst hlater =>
      obtain ⟨front, behind, rfl, hbody, hends, hneutral⟩ := ih hlater
      refine ⟨body ++ front, behind, (List.append_assoc _ _ _).symm, ?_, ?_, fun hcloses => ?_⟩
      · rwa [hfirst.stop_eq, Nat.add_assoc, ← List.length_append] at hbody
      · by_cases hfront : front = []
        · subst hfront
          rw [List.append_nil]
          exact hfirst.endsItem
        · rw [getLast?_append_of_ne_nil body hfront]
          exact hends
      · exact (hfirst.neutral (hcloses item (by simp))).append
          (hneutral fun other hother => hcloses other (by simp [hother]))

/-! ## Tags of a text -/

/-- What is known of an opening tag that a text holds. -/
structure TagAt (text tag : List Char) (t : OpeningTag) (front rest : List Char) (items : List TagItem) :
    Prop where
  text_eq : text = front ++ '<' :: (tag ++ rest)
  name : t.name = tag
  start : t.start = front.length
  nameEnd : t.nameEnd = front.length + 1 + tag.length
  code : framesAfter [] front ('<' :: (tag ++ rest)) = some []
  behind : (lastOr none front).any endsOperand = false
  ends : EndsName rest
  body : TagBody t.nameEnd rest items t.stop
  attributes : t.attributes = items.filterMap TagItem.attr

theorem exists_tagAt {text tag : List Char} {t : OpeningTag} (ht : t ∈ openingTags text tag) :
    ∃ front rest items, TagAt text tag t front rest items := by
  obtain ⟨f, hf, hopening⟩ := List.mem_filterMap.1 ht
  obtain ⟨hfound, hlive⟩ := List.mem_filter.1 hf
  obtain ⟨⟨front, rest, rfl, hstart, hread⟩, -⟩ := isPlace_of_mem_foundFrom hfound
  obtain ⟨hbehind, -, rest, rfl, hends⟩ := openingTag_eq_some hread
  obtain ⟨⟨as, stop⟩, has, rfl⟩ := Option.map_eq_some_iff.1 hopening
  rw [Nat.zero_add] at hstart
  have hcode : framesAfter [] front ('<' :: (tag ++ rest)) = some [] := by
    have hmark : (marks (front ++ '<' :: (tag ++ rest)))[front.length]? = some .live := by
      rw [← hstart]
      exact beq_iff_eq.1 hlive
    exact ((getElem?_marks_eq_live_iff (by decide)).1 hmark).1
  have hdrop : (front ++ '<' :: (tag ++ rest)).drop (f.start + 1 + tag.length) = rest := by
    rw [hstart, show front ++ '<' :: (tag ++ rest) = (front ++ '<' :: tag) ++ rest by simp]
    exact List.drop_left' (by simp; omega)
  rw [hdrop] at has
  obtain ⟨items, hbody, rfl⟩ := exists_tagBody has
  exact ⟨front, rest, items, rfl, rfl, hstart, by rw [hstart], hcode, hbehind, hends, hbody, rfl⟩

/-- A tag in code whose attributes can be read is one of the text. -/
theorem mem_openingTags {tag front rest : List Char} (htag : TagName tag)
    (hcode : framesAfter [] front ('<' :: (tag ++ rest)) = some [])
    (hbehind : (lastOr none front).any endsOperand = false) (hends : EndsName rest) {as : List Attribute}
    {stop : Nat} (hread : attributesFrom (front.length + 1 + tag.length) rest = some (as, stop)) :
    ⟨tag, front.length, front.length + 1 + tag.length, stop, as⟩ ∈
      openingTags (front ++ '<' :: (tag ++ rest)) tag := by
  obtain ⟨c, tail, rfl, hc⟩ := hends
  have hopening : openingTag tag (lastOr none front) ('<' :: (tag ++ c :: tail)) = some ((), tag.length + 1) := by
    have hafter : after? ('<' :: tag) ('<' :: (tag ++ c :: tail)) = some (c :: tail) :=
      after?_eq_some_iff.2 rfl
    have hend : (isBlank c || c == '/' || c == '>') = true := by
      rcases hc with hc | rfl | rfl <;> simp_all
    rw [openingTag, hbehind, hafter]
    dsimp only
    rw [if_pos hend]
    rfl
  have hfound : ⟨front.length, tag.length + 1, ()⟩ ∈ found (openingTag tag) (front ++ '<' :: (tag ++ c :: tail)) := by
    rw [found, mem_foundFrom_iff (ledBy_openingTag htag) (by simp)]
    exact ⟨front, _, rfl, (Nat.zero_add _).symm, hopening⟩
  refine List.mem_filterMap.2 ⟨⟨front.length, tag.length + 1, ()⟩, List.mem_filter.2 ⟨hfound, ?_⟩, ?_⟩
  · exact beq_iff_eq.2 ((getElem?_marks_eq_live_iff (by decide)).2 ⟨hcode, rfl⟩)
  · have hdrop : (front ++ '<' :: (tag ++ c :: tail)).drop (front.length + 1 + tag.length) = c :: tail := by
      rw [show front ++ '<' :: (tag ++ c :: tail) = (front ++ '<' :: tag) ++ c :: tail by simp]
      exact List.drop_left' (by simp; omega)
    rw [openingTagAt?, hdrop, hread]
    rfl

/-- A tag that stands in code is found with the attributes that are read behind its name. -/
theorem exists_mem_openingTags_iff {tag front rest : List Char} (htag : TagName tag)
    (hcode : framesAfter [] front ('<' :: (tag ++ rest)) = some [])
    (hbehind : (lastOr none front).any endsOperand = false) {as : List Attribute} :
    (∃ t ∈ openingTags (front ++ '<' :: (tag ++ rest)) tag, t.start = front.length ∧ t.name = tag ∧
        t.attributes = as) ↔
      EndsName rest ∧ ∃ stop, attributesFrom (front ++ '<' :: tag).length rest = some (as, stop) := by
  have hlen : (front ++ '<' :: tag).length = front.length + 1 + tag.length := by
    rw [List.length_append, List.length_cons]
    omega
  rw [hlen]
  constructor
  · rintro ⟨t, ht, hstart, -, rfl⟩
    obtain ⟨front', rest', items, hat⟩ := exists_tagAt ht
    obtain ⟨rfl, hcons⟩ := List.append_inj hat.text_eq (by rw [← hat.start, hstart])
    obtain rfl := List.append_cancel_left (List.cons.inj hcons).2
    have hbody := hat.body.attributesFrom_eq
    rw [hat.nameEnd, ← hat.attributes] at hbody
    exact ⟨hat.ends, _, hbody⟩
  · rintro ⟨hends, stop, hread⟩
    exact ⟨_, mem_openingTags htag hcode hbehind hends hread, rfl, rfl, rfl⟩

/-- The name of a tag leaves no trace. -/
theorem neutral_tagName {tag : List Char} (htag : TagName tag) (rest : List Char) :
    Neutral ('<' :: tag) rest := by
  have hname : Neutral tag rest :=
    neutral_of_isTagChar (fun c hc => isTagChar_of_isAttributeChar (htag.chars c hc)) rest
  have hlt : Neutral ['<'] (tag ++ rest) := passes_char rfl (.inr (by decide))
  exact hlt.append hname

/-- An item of an opening tag of the text, with what stands in front of it and what follows. -/
structure ItemAt (text : List Char) (t : OpeningTag) (lead body behind : List Char) (item : TagItem) :
    Prop where
  text_eq : text = lead ++ (body ++ behind)
  item : IsItem lead.length body behind item
  nameEnd : t.nameEnd ≤ lead.length
  ends : ∃ c ∈ lead.getLast?, EndsItem c (body ++ behind)

/-- An item of a tag stands in code when the quoted values in front of it close. -/
theorem TagAt.exists_item {text tag front rest : List Char} {t : OpeningTag} {items before later : List TagItem}
    {item : TagItem} (h : TagAt text tag t front rest items) (htag : TagName tag)
    (hitems : items = before ++ item :: later) : ∃ lead body behind, ItemAt text t lead body behind item ∧
      TagBody item.stop behind later t.stop ∧ ((∀ item ∈ before, ∀ a ∈ item.attr, a.closes = true) →
        framesAfter [] lead (body ++ behind) = some []) := by
  have hbody := h.body
  rw [hitems] at hbody
  obtain ⟨gone, behind, rfl, hrest, hends, hneutral⟩ := hbody.exists_split
  cases hrest with
  | @item _ _ body behind _ _ hfirst hlater =>
    have hlen : t.nameEnd + gone.length = ((front ++ '<' :: tag) ++ gone).length := by
      rw [h.nameEnd]
      simp only [List.length_append, List.length_cons]
      omega
    refine ⟨(front ++ '<' :: tag) ++ gone, body, behind, ⟨?_, ?_, by omega, ?_⟩, hlater, fun hcloses => ?_⟩
    · rw [h.text_eq]
      simp
    · rwa [← hlen]
    · by_cases hgone : gone = []
      · subst hgone
        rw [List.append_nil, getLast?_append_of_ne_nil front (List.cons_ne_nil '<' tag),
          show '<' :: tag = ['<'] ++ tag from rfl, getLast?_append_of_ne_nil ['<'] htag.ne_nil]
        obtain ⟨c, hc⟩ := Option.ne_none_iff_exists'.1 (mt List.getLast?_eq_none_iff.1 htag.ne_nil)
        exact ⟨c, hc, .inr (.inr ⟨htag.chars c (List.mem_of_getLast? hc), h.ends.head?_not_isAttributeChar⟩)⟩
      · rw [getLast?_append_of_ne_nil _ hgone]
        obtain ⟨c, hc⟩ := Option.ne_none_iff_exists'.1 (mt List.getLast?_eq_none_iff.1 hgone)
        exact ⟨c, hc, hends c hc⟩
    · have hcode := h.code
      rw [framesAfter_append, framesAfter_append, List.cons_append, hcode, Option.bind_some,
        (neutral_tagName htag _).reads_code, Option.bind_some, (hneutral hcloses).reads_code]

end Codemod.Source
