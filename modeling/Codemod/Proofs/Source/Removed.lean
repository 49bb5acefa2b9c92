import Codemod.Proofs.Source.Aligned

/-! What is read of a tag out of which an attribute has been taken. The items of the tag are walked through in
the old text and in the new one: an item that holds the attribute is gone, and every other one is read again,
unless a flag has run into what stood behind a cut. -/
namespace Codemod.Source
open Text

/-- An attribute as the edits leave it: its name, and what its value has become. -/
def Attribute.movedBy (a : Attribute) (edits : List Edit) (result : List Char) : Attribute :=
  ⟨a.name, a.value.map fun value =>
    between (moved edits (a.stop - value.length)) (moved edits a.stop) result,
    moved edits a.start, moved edits a.stop⟩

/-! ## Values that stay -/

theorem closesOnLine_eq_false {quote : Char} {cs : List Char} (h : quote ∉ cs) :
    closesOnLine quote cs = false := by
  induction cs using closesOnLine.induct with
  | case1 => rfl
  | case2 d cs ih => exact ih fun hm => h (by simp [hm])
  | case3 c cs hno ih =>
    by_cases hslash : c = '\\'
    · subst hslash
      cases cs with
      | nil =>
        have hne : '\\' ≠ quote := fun heq => h (by rw [heq, List.mem_singleton])
        simp [closesOnLine, hne]
      | cons d cs => exact absurd rfl (hno d cs rfl)
    · have hne : c ≠ quote := fun heq => h (by simp [heq])
      rw [closesOnLine_cons hslash, ih fun hm => h (by simp [hm])]
      simp [hne]

/-- A literal that closes at its second quote is open up to there. -/
theorem framesAfter_literal_ne {quote : Char} (hquote : isQuote quote = true) {value : List Char}
    (hvalue : quote ∉ value) (hcloses : closesOnLine quote (value ++ [quote]) = true) {x y : List Char}
    (hxy : quote :: (value ++ [quote]) = x ++ y) (hx : x ≠ []) (hy : y ≠ []) (rest : List Char) :
    framesAfter [] x (y ++ rest) ≠ some [] := by
  obtain ⟨c, part, rfl⟩ := List.exists_cons_of_ne_nil hx
  rw [List.cons_append] at hxy
  obtain ⟨rfl, hpart⟩ := List.cons.inj hxy
  have hclosed : closesOnLine quote (part ++ (y ++ rest)) = true := by
    rw [← List.append_assoc, ← hpart]
    exact closesOnLine_append_of_closes hquote hcloses rest
  have hopen : closesOnLine quote part = false := by
    obtain ⟨most, d, rfl⟩ := y.eq_nil_or_concat.resolve_left hy
    rw [List.concat_eq_append, ← List.append_assoc] at hpart
    have hmost := (List.append_inj' hpart rfl).1
    exact closesOnLine_eq_false fun hm => hvalue (by simp [hmost, hm])
  obtain ⟨inner, hinner⟩ := framesAfter_quoted_open hopen hclosed []
  have hstep : step [] quote (part ++ (y ++ rest)) = some [.quoted quote] := by
    rw [step, inertFrames_of_isQuote hquote, if_pos hclosed]
  rw [framesAfter, hstep, Option.bind_some, hinner]
  simp

variable {text tag attr front front' cs' : List Char} {edits : List Edit}

theorem IsItem.noneAt {body rest : List Char} {item : TagItem} (h : IsItem front.length body rest item)
    (hname : ∀ a ∈ item.attr, a.name ≠ attr) : NoneAt text tag attr front (body ++ rest) := by
  rintro t - a - ha body' behind heq hat
  obtain ⟨-, hattr⟩ := hat.item.unique h heq.symm
  exact hname a hattr ha

theorem namedPiece_blanks {gap : List Char} (hgap : ∀ c ∈ gap, isBlank c = true) : NamedPiece gap [] where
  split := ⟨gap, [], by simp, fun c hc => isOuter_of_isBlank (hgap c hc), by simp⟩
  outer := by simp
  neutral := neutral_of_isTagChar fun c hc => isTagChar_of_isBlank (hgap c hc)

theorem namedPiece_name {gap name : List Char} (hgap : ∀ c ∈ gap, isBlank c = true)
    (hname : ∀ c ∈ name, isAttributeChar c = true) : NamedPiece (gap ++ name) [] where
  split := ⟨gap, name, by simp, fun c hc => isOuter_of_isBlank (hgap c hc), hname⟩
  outer := by simp
  neutral := neutral_of_isTagChar fun c hc => (List.mem_append.1 hc).elim
    (fun hc => isTagChar_of_isBlank (hgap c hc)) fun hc => isTagChar_of_isAttributeChar (hname c hc)

/-- Behind the name in a label stands an equals sign. -/
theorem IsLabel.exists_namedPiece {gap name label : List Char} (hgap : ∀ c ∈ gap, isBlank c = true)
    (h : IsLabel name label) : ∃ back, NamedPiece (gap ++ label) back ∧ ∀ rest, NoName (back ++ rest) := by
  have hlabel := h.isTagChar
  obtain ⟨hname, gap', gap'', rfl, hgap', hgap''⟩ := h
  refine ⟨gap' ++ '=' :: gap'', ⟨⟨gap, name, rfl, fun c hc => isOuter_of_isBlank (hgap c hc), hname.chars⟩,
    fun c hc => ?_, neutral_of_isTagChar fun c hc => (List.mem_append.1 hc).elim
      (fun hc => isTagChar_of_isBlank (hgap c hc)) (hlabel c)⟩, fun rest => ?_⟩
  · rcases List.mem_append.1 hc with hc | hc
    · exact isOuter_of_isBlank (hgap' c hc)
    · rcases List.mem_cons.1 hc with rfl | hc
      · decide
      · exact isOuter_of_isBlank (hgap'' c hc)
  · rw [NoName, List.append_assoc, List.cons_append, trimLeft_gap hgap' (by decide)]
    rintro c ⟨⟩
    decide

/-- An attribute with a value whose name has stayed, as the edits leave it. -/
theorem Aligned.movedBy_labelled (htag : TagName tag) (name : List Char)
    {cs gap label value value' rest' : List Char}
    (h : Aligned text tag attr front cs front' (((gap ++ label) ++ value') ++ rest') edits)
    (hfar : ∀ e ∈ edits, front.length + (gap ++ label).length ≤ e.start)
    (hstop : moved (carriedOut (removals text tag attr)) (front.length + ((gap ++ label) ++ value).length) =
      front'.length + ((gap ++ label) ++ value').length) :
    Attribute.movedBy ⟨name, some value, front.length + gap.length,
        front.length + ((gap ++ label) ++ value).length⟩ (carriedOut (removals text tag attr))
        (removeAttribute text tag attr) =
      ⟨name, some value', front'.length + gap.length, front'.length + ((gap ++ label) ++ value').length⟩ := by
  have hlen (cs ds : List Char) : (cs ++ ds).length = cs.length + ds.length := List.length_append
  have hstart := h.moved_add htag (k := gap.length) fun e he => by
    have := hfar e he
    rw [hlen] at this
    omega
  have hcut : front.length + ((gap ++ label) ++ value).length - value.length =
      front.length + (gap ++ label).length := by
    rw [hlen _ value]
    omega
  have hresult : removeAttribute text tag attr = (front' ++ (gap ++ label)) ++ (value' ++ rest') := by
    rw [h.result_eq]
    simp
  have hvalue : between (front'.length + (gap ++ label).length)
      (front'.length + ((gap ++ label) ++ value').length) (removeAttribute text tag attr) = value' := by
    refine between_eq hresult (hlen _ _).symm ?_
    rw [hlen _ value']
    omega
  simp only [Attribute.movedBy, Option.map_some, hcut, hstart, hstop, h.moved_add htag hfar, hvalue]

/-- Behind blanks and a name stands no equals sign. -/
theorem IsLabel.head?_trimLeft {gap name label : List Char} (hgap : ∀ c ∈ gap, isBlank c = true)
    (hlabel : IsLabel name label) (rest : List Char) : (trimLeft ((gap ++ label) ++ rest)).head? ≠ some '=' := by
  obtain ⟨c, hc, hstart⟩ := hlabel.head?
  obtain ⟨tail, rfl⟩ := List.head?_eq_some_iff.1 hc
  rw [List.append_assoc, List.cons_append, trimLeft_gap hgap (isBlank_eq_false_of_isNameStart hstart)]
  rintro ⟨⟩
  revert hstart
  decide

/-- An item of the new text that the item of the old one has become. -/
structure KeptItem (text tag attr front rest front' cs' : List Char) (body : List Char) (item : TagItem) where
  body' : List Char
  rest' : List Char
  edits : List Edit
  new_eq : cs' = body' ++ rest'
  behind : Aligned text tag attr (front ++ body) rest (front' ++ body') rest' edits
  isItem : IsItem front'.length body' rest' ⟨front'.length, front'.length + body'.length, item.attr.map fun a =>
    a.movedBy (carriedOut (removals text tag attr)) (removeAttribute text tag attr)⟩
  head : (trimLeft cs').head? ≠ some '='

/-- An item that has a value, or is no attribute, stays an item when it does not hold the attribute. -/
theorem Aligned.kept_valued (htag : TagName tag) (hcloses : ClosesValues text tag) {body rest : List Char}
    {item : TagItem} (h : Aligned text tag attr front (body ++ rest) front' cs' edits)
    (hitem : IsItem front.length body rest item) (hquoted : ∀ a ∈ item.attr, a.closes = true)
    (hname : ∀ a ∈ item.attr, a.name ≠ attr) (hvalue : ∀ a ∈ item.attr, a.value ≠ none) :
    Nonempty (KeptItem text tag attr front rest front' cs' body item) := by
  have hfirst : NoneAt text tag attr front (body ++ rest) := hitem.noneAt hname
  cases hitem with
  | @spread gap inner _ hgap hinner =>
    have hends : NoName ([] ++ '{' :: (inner ++ rest)) := by
      rw [NoName, trimLeft_gap (by simp) (by decide)]
      rintro c ⟨⟩
      decide
    obtain ⟨inner', rest', right, rfl, hinner', hbehind, -⟩ :=
      h.kept_braced htag hcloses (namedPiece_blanks hgap) hinner hfirst hends
    refine ⟨⟨gap ++ '{' :: inner', rest', right, rfl, hbehind, .spread hgap hinner', ?_⟩⟩
    rw [List.append_assoc, List.cons_append, trimLeft_gap hgap (by decide)]
    simp
  | flag => exact absurd rfl (hvalue _ rfl)
  | @quoted gap name label value _ quote hgap hlabel hquote hends =>
    obtain ⟨back, hpiece, hnoName⟩ := hlabel.exists_namedPiece hgap
    have hliteral : closesOnLine quote (value ++ [quote]) = true := by
      simpa [Attribute.closes, hquote] using hquoted _ rfl
    rw [← List.append_assoc gap label] at h hfirst
    obtain ⟨rest', rfl, hbehind, hfar⟩ := h.kept_word htag hcloses hpiece
      (neutral_quoted hquote hends hliteral rest).reads_code hfirst (fun _ => hnoName _) fun x y hxy hx hy =>
        framesAfter_literal_ne hquote hends hliteral hxy hx hy rest
    have hmoved := h.movedBy_labelled htag name (fun e he => by
      have := hfar e he
      rw [List.length_append] at this
      omega) (h.moved_add htag hfar)
    rw [← List.append_assoc gap label]
    refine ⟨⟨_, rest', edits, rfl, hbehind, ?_, ?_⟩⟩
    · rw [Option.map_some, hmoved, List.append_assoc gap label]
      exact .quoted hgap hlabel hquote hends
    · rw [List.append_assoc (gap ++ label)]
      exact hlabel.head?_trimLeft hgap _
  | @braced gap name label inner _ hgap hlabel hinner =>
    obtain ⟨back, hpiece, hnoName⟩ := hlabel.exists_namedPiece hgap
    rw [← List.append_assoc gap label] at h hfirst
    obtain ⟨inner', rest', right, rfl, hinner', hbehind, hfar⟩ :=
      h.kept_braced htag hcloses hpiece hinner hfirst (hnoName _)
    have hstop := hbehind.moved_front htag
    have hlen (cs ds : List Char) : (cs ++ ds).length = cs.length + ds.length := List.length_append
    rw [hlen front, hlen front'] at hstop
    have hmoved := h.movedBy_labelled htag name hfar hstop
    rw [← List.append_assoc gap label]
    refine ⟨⟨_, rest', right, rfl, hbehind, ?_, ?_⟩⟩
    · rw [Option.map_some, hmoved, List.append_assoc gap label]
      exact .braced hgap hlabel hinner'
    · rw [List.append_assoc (gap ++ label)]
      exact hlabel.head?_trimLeft hgap _

/-! ## Flags that stay -/

theorem name_eq_of_readAttribute? {pos : Nat} {c : Char} {cs : List Char} {a : Attribute}
    (h : readAttribute? pos c cs = some a) : a.name = c :: cs.takeWhile isAttributeChar := by
  obtain ⟨tail, rest, rfl, htail, hrest⟩ := exists_span isAttributeChar cs
  rw [takeWhile_span htail hrest]
  rw [readAttribute?_eq htail hrest] at h
  split at h
  · obtain ⟨n, -, rfl⟩ := Option.map_eq_some_iff.1 h
    rfl
  · cases h
    rfl

/-- A name without a value is read where it ends and nowhere else. -/
theorem attributesFrom_flag_iff {gap name rest : List Char} (hgap : ∀ c ∈ gap, isBlank c = true)
    (hname : AttributeName name) (hbare : (trimLeft rest).head? ≠ some '=') (pos : Nat) (more : List Attribute) :
    (∃ stop, attributesFrom pos ((gap ++ name) ++ rest) =
      some (⟨name, none, pos + gap.length, pos + (gap ++ name).length⟩ :: more, stop)) ↔
    (∀ c ∈ rest.head?, isAttributeChar c = false) ∧
      ∃ stop, attributesFrom (pos + (gap ++ name).length) rest = some (more, stop) := by
  have hread (hends : ∀ c ∈ rest.head?, isAttributeChar c = false) :
      (∃ stop, attributesFrom pos ((gap ++ name) ++ rest) =
        some (⟨name, none, pos + gap.length, pos + (gap ++ name).length⟩ :: more, stop)) ↔
      ∃ stop, attributesFrom (pos + (gap ++ name).length) rest = some (more, stop) := by
    have hitem : IsItem pos (gap ++ name) rest _ := .flag hgap hname hends hbare
    rw [hitem.attributesFrom_append]
    simp [Option.map_eq_some_iff]
  refine ⟨fun h => ?_, fun ⟨hends, h⟩ => (hread hends).2 h⟩
  have hends : ∀ c ∈ rest.head?, isAttributeChar c = false := by
    obtain ⟨stop, h⟩ := h
    obtain ⟨d, tail, rfl, hd, htail⟩ := hname.exists_cons
    rw [List.append_assoc, List.cons_append, attributesFrom_name hgap hd] at h
    obtain ⟨a, hread, h⟩ := Option.bind_eq_some_iff.1 h
    obtain ⟨found, -, hfound⟩ := Option.map_eq_some_iff.1 h
    have hwhole := name_eq_of_readAttribute? hread
    rw [(List.cons.inj (congrArg Prod.fst hfound)).1] at hwhole
    have htake : (tail ++ rest).takeWhile isAttributeChar = tail := (List.cons.inj hwhole).2.symm
    rw [List.takeWhile_append_of_pos htail] at htake
    have hnil : rest.takeWhile isAttributeChar = [] := List.append_right_eq_self.1 htake
    intro c hc
    obtain ⟨behind, rfl⟩ := List.head?_eq_some_iff.1 hc
    by_contra hchar
    rw [List.takeWhile_cons, if_pos (by simpa using hchar)] at hnil
    cases hnil
  exact ⟨hends, (hread hends).1 h⟩

/-- A flag of another name is in both texts. -/
theorem Aligned.kept_flag (htag : TagName tag) (hcloses : ClosesValues text tag) {gap name rest : List Char}
    (h : Aligned text tag attr front ((gap ++ name) ++ rest) front' cs' edits)
    (hgap : ∀ c ∈ gap, isBlank c = true) (hname : AttributeName name)
    (hfirst : NoneAt text tag attr front ((gap ++ name) ++ rest)) :
    ∃ rest', cs' = (gap ++ name) ++ rest' ∧
      Aligned text tag attr (front ++ (gap ++ name)) rest (front' ++ (gap ++ name)) rest' edits ∧
      Attribute.movedBy ⟨name, none, front.length + gap.length, front.length + (gap ++ name).length⟩
          (carriedOut (removals text tag attr)) (removeAttribute text tag attr) =
        ⟨name, none, front'.length + gap.length, front'.length + (gap ++ name).length⟩ := by
  have hnil : gap ++ name = (gap ++ name) ++ [] := (List.append_nil _).symm
  rw [hnil] at h hfirst
  obtain ⟨rest', rfl, hbehind, hfar⟩ := h.kept_word htag hcloses (namedPiece_name hgap hname.chars) rfl hfirst
    (fun hne => absurd rfl hne) fun x y hxy hx _ => absurd (List.append_eq_nil_iff.1 hxy.symm).1 hx
  rw [← hnil] at h hbehind hfar ⊢
  refine ⟨rest', rfl, hbehind, ?_⟩
  have hstart := h.moved_add htag (k := gap.length) fun e he => by
    have := hfar e he
    rw [List.length_append] at this
    omega
  simp only [Attribute.movedBy, Option.map_none, hstart, h.moved_add htag hfar]

/-! ## Tags that stay -/

/-- What follows the attribute, as the edits leave it, does not go on with its name. -/
def Attribute.StandsAlone (a : Attribute) (edits : List Edit) (result : List Char) : Prop :=
  a.value = none → ∀ c ∈ (result.drop (moved edits a.stop)).head?, isAttributeChar c = false

instance (a : Attribute) (edits : List Edit) (result : List Char) : Decidable (a.StandsAlone edits result) :=
  decidable_of_iff (a.value = none → (result.drop (moved edits a.stop)).head?.any isAttributeChar = false)
    (imp_congr_right fun _ => by simp only [Option.any_eq_false, Option.mem_def])

/-- Behind `front'` the new text is read as the attributes are left, exactly when each of them stands alone. -/
structure ReadsLeft (text tag attr front' cs' : List Char) (as : List Attribute) : Prop where
  head : (trimLeft cs').head? ≠ some '='
  reads : (∃ stop, attributesFrom front'.length cs' = some (as.map
    (·.movedBy (carriedOut (removals text tag attr)) (removeAttribute text tag attr)), stop)) ↔
      ∀ a ∈ as, a.StandsAlone (carriedOut (removals text tag attr)) (removeAttribute text tag attr)

theorem KeptItem.readsLeft {body rest : List Char} {item : TagItem}
    (k : KeptItem text tag attr front rest front' cs' body item) (hvalue : ∀ a ∈ item.attr, a.value ≠ none)
    {as : List Attribute} (h : ReadsLeft text tag attr (front' ++ k.body') k.rest' as) :
    ReadsLeft text tag attr front' cs' (item.attr.toList ++ as) where
  head := k.head
  reads := by
    have hreads := h.reads
    rw [List.length_append] at hreads
    have hstands : (∀ a ∈ item.attr.toList ++ as,
        a.StandsAlone (carriedOut (removals text tag attr)) (removeAttribute text tag attr)) ↔
        ∀ a ∈ as, a.StandsAlone (carriedOut (removals text tag attr)) (removeAttribute text tag attr) := by
      refine ⟨fun h a ha => h a (List.mem_append_right _ ha), fun h a ha => ?_⟩
      rcases List.mem_append.1 ha with ha | ha
      · exact fun hnone => absurd hnone (hvalue a (Option.mem_toList.1 ha))
      · exact h a ha
    have hread := k.isItem.attributesFrom_append
    rw [← k.new_eq] at hread
    rw [hstands, ← hreads, hread]
    simp [Option.map_eq_some_iff, Option.toList_map]

theorem Aligned.readsLeft_flag (htag : TagName tag) (hcloses : ClosesValues text tag) {gap name rest : List Char}
    (h : Aligned text tag attr front ((gap ++ name) ++ rest) front' cs' edits)
    (hgap : ∀ c ∈ gap, isBlank c = true) (hname : AttributeName name)
    (hfirst : NoneAt text tag attr front ((gap ++ name) ++ rest)) {as : List Attribute}
    (hlater : ∀ front' cs', Aligned text tag attr (front ++ (gap ++ name)) rest front' cs' edits →
      ReadsLeft text tag attr front' cs' as) :
    ReadsLeft text tag attr front' cs'
      (⟨name, none, front.length + gap.length, front.length + (gap ++ name).length⟩ :: as) := by
  obtain ⟨rest', rfl, hbehind, hmoved⟩ := h.kept_flag htag hcloses hgap hname hfirst
  obtain ⟨hhead, hreads⟩ := hlater _ _ hbehind
  refine ⟨?_, ?_⟩
  · obtain ⟨c, tail, rfl, hc, -⟩ := hname.exists_cons
    rw [List.append_assoc, List.cons_append, trimLeft_gap hgap (isBlank_eq_false_of_isNameStart hc)]
    rintro ⟨⟩
    revert hc
    decide
  · have hdrop : (removeAttribute text tag attr).drop (moved (carriedOut (removals text tag attr))
        (front.length + (gap ++ name).length)) = rest' := by
      have hstop := hbehind.moved_front htag
      rw [List.length_append] at hstop
      rw [hstop, hbehind.result_eq, List.drop_left]
    have hstands : Attribute.StandsAlone
        ⟨name, none, front.length + gap.length, front.length + (gap ++ name).length⟩
        (carriedOut (removals text tag attr)) (removeAttribute text tag attr) ↔
          ∀ c ∈ rest'.head?, isAttributeChar c = false := by
      rw [Attribute.StandsAlone, hdrop]
      exact ⟨fun h => h rfl, fun h _ => h⟩
    rw [List.length_append] at hreads
    rw [List.map_cons, hmoved, attributesFrom_flag_iff hgap hname hhead, hreads, List.forall_mem_cons, hstands]

theorem noneAt_close {gap finish rest : List Char} (hgap : ∀ c ∈ gap, isBlank c = true)
    (hfinish : finish = ['>'] ∨ finish = ['/', '>']) :
    NoneAt text tag attr front ((gap ++ finish) ++ rest) := by
  rintro t - a - - body behind heq hat
  obtain ⟨gap', more, rfl, hgap', hname, -⟩ := hat.item.exists_name
  obtain ⟨c, tail, hcons, hc, -⟩ := hname.exists_cons
  rw [hcons, List.append_assoc, List.append_assoc] at heq
  have hblank : ∀ b ∈ (finish ++ rest).head?, isBlank b = false ∧ isNameStart b = false := by
    rcases hfinish with rfl | rfl <;> rintro b ⟨⟩ <;> decide
  have hblank' : ∀ b ∈ ((c :: tail ++ more) ++ behind).head?, isBlank b = false := by
    rintro b ⟨⟩
    exact isBlank_eq_false_of_isNameStart hc
  obtain ⟨-, hsame⟩ := span_unique hgap hgap' (fun b hb => (hblank b hb).1) hblank' heq
  have hno := (hblank c (by rw [hsame]; rfl)).2
  rw [hc] at hno
  cases hno

theorem namedPiece_close {gap finish : List Char} (hgap : ∀ c ∈ gap, isBlank c = true)
    (hfinish : finish = ['>'] ∨ finish = ['/', '>']) : NamedPiece (gap ++ finish) [] where
  split := by
    refine ⟨gap ++ finish, [], by simp, fun c hc => ?_, by simp⟩
    rcases List.mem_append.1 hc with hc | hc
    · exact isOuter_of_isBlank (hgap c hc)
    · have houter : ∀ d ∈ ['/', '>'], isOuter d = true := List.all_iff_forall_prop.1 (by decide)
      refine houter c ?_
      rcases hfinish with rfl | rfl <;> simp_all
  outer := by simp
  neutral := neutral_close hgap hfinish

/-- The attributes that are left of a tag are read in the new text if each of them stands alone. -/
theorem Aligned.readsLeft (htag : TagName tag) (hcloses : ClosesValues text tag) {t : OpeningTag}
    (ht : t ∈ openingTags text tag) {cs : List Char} {items : List TagItem} {stop : Nat}
    (h : Aligned text tag attr front cs front' cs' edits) (hbody : TagBody front.length cs items stop)
    (hitems : ∀ item ∈ items, ∀ a ∈ item.attr, a ∈ t.attributes ∧ ∃ lead body behind,
      AttributeAt text t a lead body behind ∧ item.lead = lead.length) :
    ReadsLeft text tag attr front' cs' ((items.filterMap TagItem.attr).filter (·.name != attr)) := by
  generalize hpos : front.length = pos at hbody
  induction hbody generalizing front front' cs' edits with
  | @close pos gap finish rest hgap hfinish =>
    have hnil (cs : List Char) : gap ++ (finish ++ cs) = ((gap ++ finish) ++ []) ++ cs := by simp
    have hfirst : NoneAt text tag attr front (((gap ++ finish) ++ []) ++ rest) := by
      rw [List.append_nil]
      exact noneAt_close hgap hfinish
    rw [hnil] at h
    obtain ⟨rest', rfl, -⟩ := h.kept_word htag hcloses (namedPiece_close hgap hfinish) rfl hfirst
      (fun hne => absurd rfl hne) fun x y hxy hx _ => absurd (List.append_eq_nil_iff.1 hxy.symm).1 hx
    rw [← hnil]
    refine ⟨?_, iff_of_true ⟨_, attributesFrom_close hgap hfinish _ _⟩ (by simp)⟩
    rcases hfinish with rfl | rfl <;> rw [List.cons_append, trimLeft_gap hgap (by decide)] <;> simp
  | @item pos stop body rest item items hfirst hlater ih =>
    subst hpos
    have hrest (other : TagItem) (hother : other ∈ items) := hitems other (by simp [hother])
    have hstop : (front ++ body).length = item.stop := by rw [hfirst.stop_eq, List.length_append]
    have hquoted : ∀ a ∈ item.attr, a.closes = true := fun a ha =>
      hcloses t ht a (hitems item (by simp) a ha).1
    rw [filterMap_attr_cons, List.filter_append]
    by_cases hcut : ∃ a ∈ item.attr, a.name = attr
    · obtain ⟨a, ha, hname⟩ := hcut
      obtain ⟨hmem, lead, body', behind, hat, hlead⟩ := hitems item (by simp) a ha
      have hmk := hfirst.eq_mk
      rw [hmk] at hlead
      obtain ⟨rfl, hbody⟩ := List.append_inj (h.text_eq.symm.trans hat.text_eq) hlead
      obtain ⟨rfl, -⟩ := hat.item.unique hfirst hbody.symm
      obtain rfl := List.append_cancel_left hbody
      obtain ⟨right, hbehind⟩ := h.cut htag ht hmem hname hat (hfirst.neutral hquoted).reads_code
      have hgone : item.attr.toList.filter (·.name != attr) = [] := by
        rw [Option.mem_def.1 ha]
        simp [hname]
      rw [hgone, List.nil_append]
      exact ih hbehind hrest hstop
    · have hname : ∀ a ∈ item.attr, a.name ≠ attr := fun a ha heq => hcut ⟨a, ha, heq⟩
      have hkept : item.attr.toList.filter (·.name != attr) = item.attr.toList :=
        List.filter_eq_self.2 fun a ha => bne_iff_ne.2 (hname a (Option.mem_toList.1 ha))
      rw [hkept]
      by_cases hvalue : ∀ a ∈ item.attr, a.value ≠ none
      · obtain ⟨k⟩ := h.kept_valued htag hcloses hfirst hquoted hname hvalue
        exact k.readsLeft hvalue (ih k.behind hrest hstop)
      · have hnone : NoneAt text tag attr front (body ++ rest) := hfirst.noneAt hname
        cases hfirst with
        | flag hgap hflag _ _ =>
          exact h.readsLeft_flag htag hcloses hgap hflag hnone fun front' cs' hbehind => ih hbehind hrest hstop
        | spread => exact absurd (fun a ha => nomatch ha) hvalue
        | quoted => exact absurd (by rintro a ⟨⟩; simp) hvalue
        | braced => exact absurd (by rintro a ⟨⟩; simp) hvalue

/-! ## Tags that stay -/

/-- A tag goes on with no other tag. -/
theorem TagBody.head?_ne {pos stop : Nat} {cs : List Char} {items : List TagItem}
    (h : TagBody pos cs items stop) : cs.head? ≠ some '<' := by
  have hblank : isBlank '<' = false := by decide
  cases h with
  | @close _ gap finish rest hgap hfinish =>
    cases gap with
    | nil => rcases hfinish with rfl | rfl <;> simp
    | cons c gap =>
      rintro ⟨⟩
      rw [hgap '<' (by simp)] at hblank
      cases hblank
  | item hfirst _ =>
    obtain ⟨c, cs, rfl, hc⟩ := hfirst.opens
    rintro ⟨⟩
    revert hc
    decide

theorem Replaced.getLast?_eq {cursor : Nat} {old new : List Char} (h : Replaced cursor edits old new)
    (hedits : ∀ e ∈ edits, e.stop ≠ cursor + old.length) : new.getLast? = old.getLast? := by
  induction h with
  | rest => rfl
  | @edit cursor e edits old new kept covered hstart hstop later ih =>
    simp only [List.length_append] at hedits
    have hold : old ≠ [] := by
      rintro rfl
      refine hedits e (by simp) ?_
      rw [hstop, hstart, List.length_nil, Nat.add_zero, Nat.add_assoc]
    have hlast := ih fun d hd => by
      have := hedits d (by simp [hd])
      omega
    have hnew : new ≠ [] := fun hnil => hold (by simpa [hnil] using hlast.symm)
    rw [← List.append_assoc, ← List.append_assoc, getLast?_append_of_ne_nil _ hnew,
      getLast?_append_of_ne_nil _ hold, hlast]

/-- Both texts can be walked through from where the old one is in code and no edit reaches across. -/
theorem exists_aligned (htag : TagName tag) (hattr : AttributeName attr) (hcloses : ClosesValues text tag)
    (hleaves : LeavesCode (carriedOut (removals text tag attr)) (removeAttribute text tag attr))
    {rest : List Char} (htext : text = front ++ rest) (hcode : framesAfter [] front rest = some [])
    (huntouched : ∀ e ∈ carriedOut (removals text tag attr), e.start < front.length → e.stop ≤ front.length) :
    ∃ front' rest' left right, carriedOut (removals text tag attr) = left ++ right ∧
      Replaced 0 left front front' ∧ framesAfter [] front' rest' = some [] ∧
      Aligned text tag attr front rest front' rest' right := by
  have htracks := (revised_removals htag hattr hcloses).tracks_of_leavesCode hleaves
  have hstart : Aligned text tag attr [] text [] (removeAttribute text tag attr)
      (carriedOut (removals text tag attr)) :=
    ⟨rfl, rfl, rfl, htracks, fun i _ => rfl, fun e he => .inl he, fun e he => he⟩
  subst htext
  obtain ⟨left, right, front', rest', hedits, hresult, hbefore, hreads, hbehind, -⟩ :=
    htracks.cutAlike hcode (by simpa using huntouched)
  rw [hedits, hresult] at hstart
  exact ⟨front', rest', left, right, hedits, hbefore, hreads, hstart.step htag hcode hbefore hbehind⟩

/-- In front of a tag no attribute ends, so what is cut out there leaves the last character. -/
theorem TagAt.getLast?_front {t : OpeningTag} {items : List TagItem} {before : List Edit}
    (h : TagAt text tag t front rest items) (htag : TagName tag) (hbefore : Replaced 0 before front front')
    (hedits : ∀ e ∈ before, e ∈ removals text tag attr) : front'.getLast? = front.getLast? := by
  refine hbefore.getLast?_eq fun e he hstop => ?_
  obtain ⟨t', -, a, -, -, lead, body, behind, hattribute, hsite, -⟩ := exists_site_removal htag (hedits e he)
  obtain ⟨items', hlater⟩ := hattribute.later
  have heq := hattribute.text_eq
  rw [h.text_eq, ← List.append_assoc] at heq
  have hsame := (List.append_inj heq (by
    have := hsite.start_eq
    have := hsite.stop_eq
    rw [List.length_append]
    omega)).2
  exact hlater.head?_ne (by rw [← hsame]; rfl)

/-- Where a tag that stays begins in the new text, and what is read behind its name. -/
theorem exists_readsLeft (htag : TagName tag) (hattr : AttributeName attr) (hcloses : ClosesValues text tag)
    (hleaves : LeavesCode (carriedOut (removals text tag attr)) (removeAttribute text tag attr))
    {t : OpeningTag} (ht : t ∈ openingTags text tag)
    (huntouched : Untouched (carriedOut (removals text tag attr)) t.start) : ∃ front' rest',
      removeAttribute text tag attr = front' ++ '<' :: (tag ++ rest') ∧
      moved (carriedOut (removals text tag attr)) t.start = front'.length ∧
      moved (carriedOut (removals text tag attr)) t.nameEnd = (front' ++ '<' :: tag).length ∧
      framesAfter [] front' ('<' :: (tag ++ rest')) = some [] ∧
      (lastOr none front').any endsOperand = false ∧
      ReadsLeft text tag attr (front' ++ '<' :: tag) rest' (t.attributes.filter (·.name != attr)) := by
  obtain ⟨front, rest, items, hat⟩ := exists_tagAt ht
  obtain ⟨front', cs', before, right, hedits, hbefore, hreads, hstart⟩ :=
    exists_aligned htag hattr hcloses hleaves hat.text_eq hat.code fun e he hlt => by
      have := huntouched e he
      rw [hat.start] at this
      omega
  -- the name of the tag stays
  have hpiece : NamedPiece ('<' :: tag) [] :=
    ⟨⟨['<'], tag, by simp, List.all_iff_forall_prop.1 (by decide), htag.chars⟩, by simp, neutral_tagName htag⟩
  have hfirst : NoneAt text tag attr front (('<' :: tag ++ []) ++ rest) := by
    rintro t' - a - - body behind heq hattribute
    obtain ⟨c, cs, rfl, hc⟩ := hattribute.item.opens
    obtain rfl : '<' = c := (List.cons.inj heq).1
    revert hc
    decide
  have hnil (cs : List Char) : '<' :: (tag ++ cs) = ('<' :: tag ++ []) ++ cs := by simp
  have hword := hstart
  rw [hnil] at hword
  obtain ⟨rest', rfl, hbehind, -⟩ := hword.kept_word htag hcloses hpiece rfl hfirst
    (fun hne => absurd rfl hne) fun x y hxy hx _ => absurd (List.append_eq_nil_iff.1 hxy.symm).1 hx
  rw [← hnil] at hreads hstart
  rw [List.append_nil] at hbehind
  have hlen : (front ++ '<' :: tag).length = t.nameEnd := by
    rw [hat.nameEnd, List.length_append, List.length_cons]
    omega
  have hmoved := hbehind.moved_front htag
  have hbody := hat.body
  rw [hlen] at hmoved
  rw [← hlen] at hbody
  have hlast : front'.getLast? = front.getLast? := hat.getLast?_front htag hbefore fun e he =>
    mem_of_mem_carriedOut (hedits ▸ List.mem_append_left right he)
  refine ⟨front', rest', hstart.result_eq, ?_, hmoved, hreads, ?_, ?_⟩
  · rw [hat.start]
    exact hstart.moved_front htag
  · rw [lastOr, hlast]
    exact hat.behind
  · have hleft := hbehind.readsLeft htag hcloses ht hbody fun item hitem a ha => by
      refine ⟨?_, hat.exists_attributeAt htag hitem ha⟩
      rw [hat.attributes]
      exact List.mem_filterMap.2 ⟨item, hitem, ha⟩
    rwa [← hat.attributes] at hleft

/-- A text that no edit touches stands in the new text where it has been moved to. -/
theorem Replaced.between_moved_eq {old new : List Char} (h : Replaced 0 edits old new)
    (hedits : ∀ e ∈ edits, e.start < e.stop) {start stop : Nat} (hle : start ≤ stop) (hlen : stop ≤ old.length)
    (hfree : ∀ e ∈ edits, e.stop ≤ start ∨ stop ≤ e.start) :
    between (moved edits start) (moved edits stop) new = between start stop old := by
  obtain ⟨left, right, front, rest, front', rest', rfl, rfl, rfl, hoffset, hmoved, hbefore, hbehind, -, hge⟩ :=
    h.nonempty_cutAt (i := start) (by omega) fun e he => ⟨hedits e he, by have := hfree e he; omega⟩
  have hright : ∀ e ∈ right, stop ≤ e.start ∧ e.start < e.stop := fun e he => by
    have := hfree e (by simp [he])
    have := hedits e (by simp [he])
    have := hge e he
    omega
  have hfar : ∀ e ∈ right, 0 + front.length ≤ e.start ∧ e.start < e.stop := fun e he => by
    have := hright e he
    omega
  have hlater (n : Nat) (hn : start ≤ n) (hstop : n ≤ stop) :
      moved (left ++ right) n = front'.length + (n - start) := by
    rw [moved, hbefore.movedFrom_append hfar (by omega), ← hoffset, Nat.zero_add, movedFrom_of_le fun e he =>
      ⟨Nat.le_trans hstop (hright e he).1, (hright e he).2⟩]
  -- up to the first edit the rest is kept
  obtain ⟨kept, more, more', rfl, rfl, hkept⟩ : ∃ kept more more', rest = kept ++ more ∧
      rest' = kept ++ more' ∧ stop - start ≤ kept.length := by
    cases hbehind with
    | rest =>
      rw [List.length_append] at hlen
      exact ⟨rest, [], [], by simp, by simp, by omega⟩
    | @edit _ e later old new kept covered hstart _ _ =>
      have := hright e (by simp)
      exact ⟨kept, _, _, rfl, rfl, by omega⟩
  rw [hlater start (Nat.le_refl _) hle, hlater stop hle (Nat.le_refl _)]
  have hsplit (cs : List Char) : kept ++ cs = kept.take (stop - start) ++ (kept.drop (stop - start) ++ cs) := by
    rw [← List.append_assoc, List.take_append_drop]
  have htake : (kept.take (stop - start)).length = stop - start := by
    rw [List.length_take]
    omega
  rw [Text.between_eq (congrArg (front ++ ·) (hsplit more)) (by omega) (by omega),
    Text.between_eq (congrArg (front' ++ ·) (hsplit more')) (by omega) (by omega)]

theorem IsItem.exists_value {pos stop : Nat} {body rest value : List Char} {a : Attribute}
    (h : IsItem pos body rest ⟨pos, stop, some a⟩) (hvalue : a.value = some value) :
    ∃ lead, body = lead ++ value ∧ a.start ≤ pos + lead.length := by
  cases h with
  | flag => cases hvalue
  | @quoted gap name label body _ quote =>
    cases hvalue
    exact ⟨gap ++ label, (List.append_assoc _ _ _).symm, by simp⟩
  | @braced gap name label inner =>
    cases hvalue
    exact ⟨gap ++ label, (List.append_assoc _ _ _).symm, by simp⟩

/-- A value in which nothing is edited is kept. -/
theorem value_movedBy (htag : TagName tag) {result : List Char} (h : Revised CodeEdit [] edits text result)
    {t : OpeningTag} (ht : t ∈ openingTags text tag) {a : Attribute} (ha : a ∈ t.attributes)
    (hfree : ∀ e ∈ edits, e.stop ≤ a.start ∨ a.stop ≤ e.start) : (a.movedBy edits result).value = a.value := by
  cases hvalue : a.value with
  | none => rw [Attribute.movedBy, hvalue, Option.map_none]
  | some value =>
    obtain ⟨lead, body, behind, hat⟩ := exists_attributeAt htag ht ha
    obtain ⟨label, rfl, hstart⟩ := hat.item.exists_value hvalue
    have hstop := hat.stop_eq
    have htext : text = (lead ++ label) ++ (value ++ behind) := by
      rw [hat.text_eq]
      simp
    rw [List.length_append] at hstop
    have hlen : a.stop ≤ text.length := by
      rw [htext]
      simp only [List.length_append]
      omega
    rw [Attribute.movedBy, hvalue, Option.map_some, h.replaced.between_moved_eq
      (fun e he => (h.starts e he).2) (Nat.sub_le _ _) hlen fun e he => by
        have := hfree e he
        omega, between_eq htext (by rw [List.length_append]; omega) (by omega)]

/-- Taking an attribute out of the tags of a name, in any text whose quoted values close on their lines and where
the new text goes on with code behind each cut: a tag that stays is found again with all its other attributes, in
order, exactly when its name ends and each flag among them stands alone. An attribute in which nothing is cut
keeps its value. -/
theorem removeAttribute_keeps_attributes_iff (htag : TagName tag) (hattr : AttributeName attr)
    (hcloses : ClosesValues text tag)
    (hleaves : LeavesCode (carriedOut (removals text tag attr)) (removeAttribute text tag attr))
    {t : OpeningTag} (ht : t ∈ openingTags text tag)
    (huntouched : Untouched (carriedOut (removals text tag attr)) t.start) :
    let edits := carriedOut (removals text tag attr)
    let result := removeAttribute text tag attr
    let left := t.attributes.filter (·.name != attr)
    ((∃ t' ∈ openingTags result tag, t'.start = moved edits t.start ∧ t'.name = t.name ∧
        t'.attributes = left.map (·.movedBy edits result)) ↔
      EndsName (result.drop (moved edits t.nameEnd)) ∧ ∀ a ∈ left, a.StandsAlone edits result) ∧
    ∀ a ∈ t.attributes, (∀ e ∈ edits, e.stop ≤ a.start ∨ a.stop ≤ e.start) →
      (a.movedBy edits result).value = a.value := by
  intro edits result left
  refine ⟨?_, fun a ha hfree => ?_⟩
  · obtain ⟨front', rest', hresult, hstart, hname, hcode, hbehind, hleft⟩ :=
      exists_readsLeft htag hattr hcloses hleaves ht huntouched
    have htext : t.name = tag := by
      obtain ⟨front, rest, items, hat⟩ := exists_tagAt ht
      exact hat.name
    have hdrop : result.drop (moved edits t.nameEnd) = rest' := by
      have hsplit : result = (front' ++ '<' :: tag) ++ rest' := hresult.trans (by simp)
      rw [hname, hsplit, List.drop_left]
    rw [hdrop, ← hleft.reads, hstart, htext, ← exists_mem_openingTags_iff htag hcode hbehind, ← hresult]
  · exact value_movedBy htag (revised_removals htag hattr hcloses) ht ha hfree

theorem removeAttribute_keeps_attributes_iff_sample :
    let text := "<A b x=\"1\" c=\x7bD\x7d />".toList
    let edits := carriedOut (removals text "A".toList "x".toList)
    ClosesValues text "A".toList ∧ LeavesCode edits (removeAttribute text "A".toList "x".toList) ∧
      Untouched edits 0 ∧ ∃ t ∈ openingTags "<A b c=\x7bD\x7d />".toList "A".toList, t.start = 0 ∧
        t.name = "A".toList ∧ t.attributes =
          [⟨"b".toList, none, 3, 4⟩, ⟨"c".toList, some "\x7bD\x7d".toList, 5, 10⟩] := by
  have htag : TagName "A".toList := ⟨by decide, List.all_iff_forall_prop.1 (by decide)⟩
  have hattr : AttributeName "x".toList := by decide
  have htags : openingTags "<A b x=\"1\" c=\x7bD\x7d />".toList "A".toList = [⟨"A".toList, 0, 2, 19,
      [⟨"b".toList, none, 3, 4⟩, ⟨"x".toList, some "\"1\"".toList, 5, 10⟩,
        ⟨"c".toList, some "\x7bD\x7d".toList, 11, 16⟩]⟩] := by decide +kernel
  have hedits : carriedOut (removals "<A b x=\"1\" c=\x7bD\x7d />".toList "A".toList "x".toList) =
      [⟨4, 10, []⟩] := by decide +kernel
  have hresult : removeAttribute "<A b x=\"1\" c=\x7bD\x7d />".toList "A".toList "x".toList =
      "<A b c=\x7bD\x7d />".toList := by decide +kernel
  have hcloses : ClosesValues "<A b x=\"1\" c=\x7bD\x7d />".toList "A".toList := by
    rw [ClosesValues, htags]
    decide
  have hleaves : LeavesCode (carriedOut (removals "<A b x=\"1\" c=\x7bD\x7d />".toList "A".toList "x".toList))
      (removeAttribute "<A b x=\"1\" c=\x7bD\x7d />".toList "A".toList "x".toList) := by
    rw [hedits, hresult]
    decide
  have huntouched : Untouched (carriedOut (removals "<A b x=\"1\" c=\x7bD\x7d />".toList "A".toList "x".toList))
      0 := by
    rw [hedits]
    decide
  have hiff := (removeAttribute_keeps_attributes_iff htag hattr hcloses hleaves
    (t := ⟨"A".toList, 0, 2, 19, [⟨"b".toList, none, 3, 4⟩, ⟨"x".toList, some "\"1\"".toList, 5, 10⟩,
        ⟨"c".toList, some "\x7bD\x7d".toList, 11, 16⟩]⟩) (by rw [htags]; simp) huntouched).1
  rw [hedits, hresult] at hiff
  exact ⟨hcloses, hleaves, huntouched, hiff.2 ⟨⟨' ', _, rfl, by decide⟩, by decide⟩⟩

/-- Without a blank behind it, a value that is cut out lets the flags next to it run together. -/
example : removeAttribute "<A b x=\"1\"c />".toList "A".toList "x".toList = "<A bc />".toList := by decide +kernel

end Codemod.Source
