import Codemod.Proofs.Source.AttributeEdit

/-! A text and what is left of it when an attribute has been taken out of its tags, read side by side. Where the
new text is code behind each cut, both are read alike, and a cut begins only where something has ended and a name
follows. -/
namespace Codemod.Source
open Text

/-! ## Where a cut can begin -/

/-- Something has ended in front, and a name follows behind blanks. -/
def BeginsItem (front rest : List Char) : Prop :=
  (∃ c ∈ front.getLast?, EndsItem c rest) ∧ ∃ c ∈ (trimLeft rest).head?, isNameStart c = true

theorem AttributeAt.beginsItem {text lead body behind : List Char} {t : OpeningTag} {a : Attribute}
    (h : AttributeAt text t a lead body behind) : BeginsItem lead (body ++ behind) := by
  refine ⟨h.ends, ?_⟩
  obtain ⟨gap, more, rfl, hgap, hname, -⟩ := h.item.exists_name
  obtain ⟨c, tail, heq, hc, -⟩ := hname.exists_cons
  rw [heq, List.append_assoc, trimLeft_blanks_append hgap]
  have hblank : isBlank c = false := isBlank_eq_false_of_isNameStart hc
  refine ⟨c, ?_, hc⟩
  simp [trimLeft, hblank]

/-- A character outside names that ends no value. -/
def isOuter (c : Char) : Bool := !isQuote c && c != '}' && !isAttributeChar c

theorem isOuter_of_isBlank {c : Char} (h : isBlank c = true) : isOuter c = true := by
  have hquote : isQuote c = false := by
    by_contra hquote
    rw [isBlank_eq_false_of_isQuote (by simpa using hquote)] at h
    cases h
  have hbrace : c ≠ '}' := by
    rintro rfl
    revert h
    decide
  simp [isOuter, hquote, hbrace, isAttributeChar_of_isBlank h]

theorem not_endsItem_of_isOuter {c : Char} (h : isOuter c = true) (rest : List Char) : ¬ EndsItem c rest := by
  simp only [isOuter, Bool.and_eq_true, Bool.not_eq_true', bne_iff_ne, ne_eq] at h
  obtain ⟨⟨hquote, hbrace⟩, hchar⟩ := h
  rintro (hq | rfl | ⟨hc, -⟩)
  · rw [hquote] at hq
    cases hq
  · exact hbrace rfl
  · rw [hchar] at hc
    cases hc

/-- Behind blanks no name follows. -/
def NoName (cs : List Char) : Prop := ∀ c ∈ (trimLeft cs).head?, isNameStart c = false

/-- A name with what stands around it, of which `back` follows the name. -/
structure NamedPiece (word back : List Char) : Prop where
  split : ∃ gap name, word = gap ++ (name ++ back) ∧ (∀ c ∈ gap, isOuter c = true) ∧
    ∀ c ∈ name, isAttributeChar c = true
  outer : ∀ c ∈ back, isOuter c = true
  neutral : ∀ rest, Neutral word rest

/-- Inside a word nothing begins, but for what stands right behind its name. -/
theorem NamedPiece.not_beginsItem {word back x y : List Char} (h : NamedPiece word back) (hxy : word = x ++ y)
    (hx : x ≠ []) {more : List Char} (hends : y = back → NoName (y ++ more)) (front : List Char) :
    ¬ BeginsItem (front ++ x) (y ++ more) := by
  obtain ⟨⟨gap, name, rfl, hgap, hname⟩, hback, -⟩ := h
  rintro ⟨⟨c, hc, hends'⟩, d, hd, hstart⟩
  have hends (hy : y = back) : False := by
    rw [hends hy d hd] at hstart
    cases hstart
  rw [getLast?_append_of_ne_nil front hx] at hc
  have houter (hm : c ∈ gap ∨ c ∈ back) : False :=
    not_endsItem_of_isOuter (hm.elim (hgap c) (hback c)) _ hends'
  rcases List.append_eq_append_iff.1 hxy with ⟨x', rfl, hrest⟩ | ⟨y', hgapx, -⟩
  · by_cases hx' : x' = []
    · subst hx'
      rw [List.append_nil] at hc
      exact houter (.inl (List.mem_of_getLast? hc))
    rw [getLast?_append_of_ne_nil gap hx'] at hc
    rcases List.append_eq_append_iff.1 hrest with ⟨x'', rfl, hback'⟩ | ⟨y', rfl, rfl⟩
    · by_cases hx'' : x'' = []
      · subst hx''
        exact hends hback'.symm
      · rw [getLast?_append_of_ne_nil name hx''] at hc
        exact houter (.inr (by rw [hback']; exact List.mem_append_left _ (List.mem_of_getLast? hc)))
    · cases y' with
      | nil => exact hends rfl
      | cons b y' =>
        have hchar : isAttributeChar c = true := hname c (List.mem_append_left _ (List.mem_of_getLast? hc))
        have hb : isAttributeChar b = true := hname b (by simp)
        rcases hends' with hquote | rfl | ⟨-, hnext⟩
        · rcases eq_of_isQuote hquote with rfl | rfl <;> revert hchar <;> decide
        · revert hchar
          decide
        · rw [hnext b rfl] at hb
          cases hb
  · refine houter (.inl ?_)
    rw [hgapx]
    exact List.mem_append_left _ (List.mem_of_getLast? hc)

/-! ## Walking through both texts -/

/-- Behind `front` the old text goes on, and behind `front'` the new one, and both are read alike. The edits are
those of the rest of the text. -/
structure Aligned (text tag attr front cs front' cs' : List Char) (edits : List Edit) : Prop where
  text_eq : text = front ++ cs
  result_eq : removeAttribute text tag attr = front' ++ cs'
  code : framesAfter [] front cs = some []
  tracks : Tracks [] front.length edits cs cs'
  moved_eq : ∀ i, front.length ≤ i →
    moved (carriedOut (removals text tag attr)) i = movedFrom front.length front'.length edits i
  carried : ∀ e ∈ carriedOut (removals text tag attr), e ∈ edits ∨ e.stop ≤ front.length
  subset : ∀ e ∈ edits, e ∈ carriedOut (removals text tag attr)

variable {text tag attr front front' cs' : List Char} {edits : List Edit}

theorem Aligned.starts {cs : List Char} (htag : TagName tag)
    (h : Aligned text tag attr front cs front' cs' edits) :
    ∀ e ∈ edits, front.length ≤ e.start ∧ e.start < e.stop := by
  intro e he
  obtain ⟨t, -, a, -, -, lead, body, behind, hat, hsite, -⟩ :=
    exists_site_removal htag (mem_of_mem_carriedOut (h.subset e he))
  have hlen := List.length_pos_of_ne_nil hat.covered_ne_nil
  have hstop := hsite.stop_eq
  exact ⟨(h.tracks.replaced.cursor_le e he).1, by omega⟩

theorem Aligned.step (htag : TagName tag) {inner rest inner' rest' : List Char} {left right : List Edit}
    (h : Aligned text tag attr front (inner ++ rest) front' (inner' ++ rest') (left ++ right))
    (hcode : framesAfter [] inner rest = some []) (hbefore : Replaced front.length left inner inner')
    (hbehind : Tracks [] (front.length + inner.length) right rest rest') :
    Aligned text tag attr (front ++ inner) rest (front' ++ inner') rest' right := by
  have hstarts := h.starts htag
  have hright : ∀ e ∈ right, front.length + inner.length ≤ e.start ∧ e.start < e.stop := fun e he =>
    ⟨(hbehind.replaced.cursor_le e he).1, (hstarts e (by simp [he])).2⟩
  refine ⟨?_, ?_, ?_, ?_, fun i hi => ?_, fun e he => ?_, fun e he => h.subset e (by simp [he])⟩
  · rw [h.text_eq, List.append_assoc]
  · rw [h.result_eq, List.append_assoc]
  · rw [framesAfter_append, h.code, Option.bind_some, hcode]
  · rwa [List.length_append]
  · rw [List.length_append] at hi ⊢
    rw [h.moved_eq i (by omega), hbefore.movedFrom_append hright hi, List.length_append]
  · rw [List.length_append]
    rcases h.carried e he with hmem | hstop
    · rcases List.mem_append.1 hmem with hleft | hright
      · exact .inr (hbefore.cursor_le e hleft).2.2
      · exact .inl hright
    · exact .inr (by omega)

/-- An edit of the rest begins where an attribute of the name stands. -/
theorem Aligned.exists_attributeAt (htag : TagName tag) {x rest : List Char}
    (h : Aligned text tag attr front (x ++ rest) front' cs' edits) {e : Edit} (he : e ∈ edits)
    (hstart : e.start = front.length + x.length) : ∃ t ∈ openingTags text tag, ∃ a ∈ t.attributes,
      a.name = attr ∧ e.text = [] ∧ ∃ body behind, AttributeAt text t a (front ++ x) body behind ∧
        rest = body ++ behind ∧ e.stop = e.start + body.length := by
  obtain ⟨t, ht, a, ha, hname, lead, body, behind, hat, hsite, htext⟩ :=
    exists_site_removal htag (mem_of_mem_carriedOut (h.subset e he))
  have heq : (front ++ x) ++ rest = lead ++ (body ++ behind) := by
    rw [List.append_assoc, ← h.text_eq, hat.text_eq]
  obtain ⟨rfl, hrest⟩ := List.append_inj heq (by
    have := hsite.start_eq
    rw [List.length_append]
    omega)
  exact ⟨t, ht, a, ha, hname, htext, body, behind, hat, hrest, hsite.stop_eq⟩

/-- A piece in which no edit begins is in both texts. -/
theorem Aligned.kept (htag : TagName tag) {piece rest : List Char}
    (h : Aligned text tag attr front (piece ++ rest) front' cs' edits)
    (hcode : framesAfter [] piece rest = some [])
    (hnone : ∀ x y, piece = x ++ y → y ≠ [] → ∀ t ∈ openingTags text tag, ∀ a ∈ t.attributes, a.name = attr →
      ∀ body behind, y ++ rest = body ++ behind → ¬ AttributeAt text t a (front ++ x) body behind) :
    ∃ rest', cs' = piece ++ rest' ∧ Aligned text tag attr (front ++ piece) rest (front' ++ piece) rest' edits ∧
      ∀ e ∈ edits, front.length + piece.length ≤ e.start := by
  have hstarts := h.starts htag
  have hfar : ∀ e ∈ edits, front.length + piece.length ≤ e.start := by
    intro e he
    by_contra hnear
    have hle := (hstarts e he).1
    have hsplit : piece = piece.take (e.start - front.length) ++ piece.drop (e.start - front.length) :=
      (List.take_append_drop _ _).symm
    have hlen : (piece.take (e.start - front.length)).length = e.start - front.length := by
      rw [List.length_take]
      omega
    have hat := h
    rw [hsplit, List.append_assoc] at hat
    obtain ⟨t, ht, a, ha, hname, -, body, behind, hattr, hrest, -⟩ :=
      hat.exists_attributeAt htag he (by omega)
    refine hnone _ _ hsplit ?_ t ht a ha hname body behind hrest hattr
    intro hnil
    have := congrArg List.length hnil
    rw [List.length_drop, List.length_nil] at this
    omega
  obtain ⟨left, right, piece', rest', rfl, rfl, hbefore, -, hbehind, hinside⟩ :=
    h.tracks.cutAlike hcode fun e he hlt => absurd (hfar e he) (by omega)
  obtain rfl : left = [] := List.eq_nil_iff_forall_not_mem.2 fun e he =>
    absurd (hfar e (by simp [he])) (by have := hinside e he; omega)
  cases hbefore with
  | rest => exact ⟨rest', rfl, h.step htag hcode (.rest _ _) hbehind, hfar⟩

/-- An attribute of the name that stands where both texts go on is gone in the new one. -/
theorem Aligned.cut (htag : TagName tag) {body behind : List Char}
    (h : Aligned text tag attr front (body ++ behind) front' cs' edits) {t : OpeningTag}
    (ht : t ∈ openingTags text tag) {a : Attribute} (ha : a ∈ t.attributes) (hname : a.name = attr)
    (hat : AttributeAt text t a front body behind) (hcode : framesAfter [] body behind = some []) :
    ∃ right, Aligned text tag attr (front ++ body) behind front' cs' right := by
  have hstarts := h.starts htag
  have hlen := List.length_pos_of_ne_nil hat.covered_ne_nil
  have hmem : (⟨front.length, front.length + body.length, []⟩ : Edit) ∈ removals text tag attr := by
    refine mem_removals_iff.2 ⟨t, ht, a, ha, hname, ?_⟩
    rw [hat.attributeRange_eq, hat.stop_eq]
  have hcarried : (⟨front.length, front.length + body.length, []⟩ : Edit) ∈
      carriedOut (removals text tag attr) := by
    refine mem_carriedOut_of_boundary hmem (fun d hd hstart => ?_) fun d hd hlt => ?_
    · -- what begins at one place is read in one way
      obtain ⟨t', -, a', -, -, lead, body', behind', hat', hsite, htext⟩ := exists_site_removal htag hd
      obtain ⟨rfl, hrest⟩ := List.append_inj (hat'.text_eq.symm.trans hat.text_eq)
        (hsite.start_eq.symm.trans hstart)
      obtain ⟨rfl, -⟩ := hat'.item.unique hat.item hrest
      obtain ⟨start, stop, new⟩ := d
      have hstop := hsite.stop_eq
      dsimp only at hstart hstop htext
      rw [hstop, hstart, htext]
    · rcases h.carried d hd with hd | hstop
      · have := hstarts d hd
        dsimp only at hlt
        omega
      · exact hstop
  have he := (h.carried _ hcarried).resolve_right fun hstop => by
    dsimp only at hstop
    omega
  obtain ⟨right, rest', rfl, rfl, hbehind⟩ :=
    h.tracks.exists_first (fun e he => (hstarts e he).2) he rfl rfl hcode
  have hbefore : Replaced front.length [⟨front.length, front.length + body.length, []⟩]
      ([] ++ (body ++ [])) ([] ++ ([] ++ [])) := .edit [] body rfl rfl (.rest _ [])
  rw [List.append_nil, List.append_nil, List.nil_append] at hbefore
  have hsplit : Aligned text tag attr front (body ++ behind) front' ([] ++ cs')
      ([⟨front.length, front.length + body.length, []⟩] ++ right) := h
  have hstep := hsplit.step htag hcode hbefore hbehind
  rw [List.append_nil] at hstep
  exact ⟨right, hstep⟩

/-! ## Pieces that stay -/

/-- Every quoted value of a tag of the name closes on its line. -/
def ClosesValues (text tag : List Char) : Prop :=
  ∀ t ∈ openingTags text tag, ∀ a ∈ t.attributes, a.closes = true

/-- No attribute of the name stands where the text goes on behind `front`. -/
def NoneAt (text tag attr front cs : List Char) : Prop :=
  ∀ t ∈ openingTags text tag, ∀ a ∈ t.attributes, a.name = attr → ∀ body behind, cs = body ++ behind →
    ¬ AttributeAt text t a front body behind

/-- A word, and the part of a value in which nothing is code, are in both texts when no attribute of the name
stands there. -/
theorem Aligned.kept_word (htag : TagName tag) (hcloses : ClosesValues text tag) {word back tail rest : List Char}
    (h : Aligned text tag attr front ((word ++ tail) ++ rest) front' cs' edits) (hword : NamedPiece word back)
    (hcode : framesAfter [] tail rest = some []) (hfirst : NoneAt text tag attr front ((word ++ tail) ++ rest))
    (hends : back ++ tail ≠ [] → NoName (back ++ (tail ++ rest)))
    (hinside : ∀ x y, tail = x ++ y → x ≠ [] → y ≠ [] → framesAfter [] x (y ++ rest) ≠ some []) :
    ∃ rest', cs' = (word ++ tail) ++ rest' ∧
      Aligned text tag attr (front ++ (word ++ tail)) rest (front' ++ (word ++ tail)) rest' edits ∧
      ∀ e ∈ edits, front.length + (word ++ tail).length ≤ e.start := by
  have hreads : framesAfter [] (word ++ tail) rest = some [] := by
    rw [framesAfter_append, (hword.neutral _).reads_code, Option.bind_some, hcode]
  refine h.kept htag hreads fun x y hxy hy t ht a ha hattr body behind hrest hat => ?_
  by_cases hx : x = []
  · subst hx
    rw [List.append_nil] at hat
    refine hfirst t ht a ha hattr body behind ?_ hat
    rw [← hrest, hxy, List.nil_append]
  have hbegins := hat.beginsItem
  rw [← hrest] at hbegins
  rcases List.append_eq_append_iff.1 hxy with ⟨x', rfl, rfl⟩ | ⟨y', hsplit, rfl⟩
  · by_cases hx' : x' = []
    · subst hx'
      rw [List.append_nil] at hbegins hx
      refine hword.not_beginsItem (List.append_nil _).symm hx (fun hnil => ?_) front hbegins
      subst hnil
      exact hends hy
    · -- inside a literal nothing stands in code
      have hreads := hat.code (hcloses t ht)
      have hassoc : (word ++ x') ++ (y ++ rest) = (word ++ (x' ++ y)) ++ rest := by simp
      rw [← hrest, framesAfter_append, hassoc, h.code, Option.bind_some, framesAfter_append,
        (hword.neutral _).reads_code, Option.bind_some] at hreads
      exact hinside x' y rfl hx' hy hreads
  · rw [List.append_assoc] at hbegins
    refine hword.not_beginsItem hsplit hx (fun hy' => ?_) front hbegins
    subst hy'
    exact hends hy

/-- Behind a brace both texts go on alike, and so they do behind what it closes. -/
theorem Aligned.braces (htag : TagName tag) {inner rest : List Char}
    (h : Aligned text tag attr front (inner ++ rest) front' cs' edits)
    (hinner : bracketExtent? '{' (inner ++ rest) = some inner.length) : ∃ inner' rest' right,
      cs' = inner' ++ rest' ∧ bracketExtent? '{' (inner' ++ rest') = some inner'.length ∧
      Aligned text tag attr (front ++ inner) rest (front' ++ inner') rest' right := by
  have hcode : framesAfter [] inner rest = some [] := (neutral_braced hinner).reads_code
  cases h.tracks.closesAlike_brace with
  | never hold _ =>
    have hnone : bracketExtent? '{' (inner ++ rest) = none := hold
    rw [hnone] at hinner
    cases hinner
  | both left right inner₀ rest₀ inner' rest' hedits hcs hcs' hold hnew hbefore hbehind =>
    subst hedits hcs'
    have hlen : inner.length = inner₀.length := Option.some_inj.1 (hinner.symm.trans hold)
    obtain ⟨rfl, rfl⟩ := List.append_inj hcs hlen
    exact ⟨inner', rest', right, rfl, hnew, h.step htag hcode hbefore hbehind⟩

/-- A word and the brace behind it are in both texts when no attribute of the name stands there, and what the brace
closes has become what it closes in the new text. -/
theorem Aligned.kept_braced (htag : TagName tag) (hcloses : ClosesValues text tag)
    {word back inner rest : List Char}
    (h : Aligned text tag attr front ((word ++ '{' :: inner) ++ rest) front' cs' edits) (hword : NamedPiece word back)
    (hinner : bracketExtent? '{' (inner ++ rest) = some inner.length)
    (hfirst : NoneAt text tag attr front ((word ++ '{' :: inner) ++ rest))
    (hends : NoName (back ++ '{' :: (inner ++ rest))) : ∃ inner' rest' right,
      cs' = (word ++ '{' :: inner') ++ rest' ∧ bracketExtent? '{' (inner' ++ rest') = some inner'.length ∧
      Aligned text tag attr (front ++ (word ++ '{' :: inner)) rest (front' ++ (word ++ '{' :: inner')) rest' right ∧
      ∀ e ∈ edits, front.length + word.length ≤ e.start := by
  have hassoc (word inner rest : List Char) :
      (word ++ '{' :: inner) ++ rest = (word ++ ['{']) ++ (inner ++ rest) := by simp
  rw [hassoc] at h hfirst
  obtain ⟨rest₀, rfl, hbrace, hfar⟩ := h.kept_word htag hcloses hword rfl hfirst (fun _ => hends)
    fun x y hxy hx hy => by
      obtain ⟨c, x, rfl⟩ := List.exists_cons_of_ne_nil hx
      exact absurd (List.append_eq_nil_iff.1 (List.cons.inj hxy).2.symm).2 hy
  obtain ⟨inner', rest', right, rfl, hinner', hbehind⟩ := hbrace.braces htag hinner
  have hcons (front inner : List Char) : (front ++ (word ++ ['{'])) ++ inner = front ++ (word ++ '{' :: inner) := by
    simp
  rw [hcons, hcons] at hbehind
  refine ⟨inner', rest', right, (hassoc _ _ _).symm, hinner', hbehind, fun e he => ?_⟩
  have := hfar e he
  rw [List.length_append] at this
  omega

theorem Aligned.moved_add (htag : TagName tag) {cs : List Char}
    (h : Aligned text tag attr front cs front' cs' edits) {k : Nat}
    (hfar : ∀ e ∈ edits, front.length + k ≤ e.start) :
    moved (carriedOut (removals text tag attr)) (front.length + k) = front'.length + k := by
  rw [h.moved_eq _ (Nat.le_add_right _ k), movedFrom_of_le fun e he => ⟨hfar e he, (h.starts htag e he).2⟩,
    Nat.add_sub_cancel_left]

theorem Aligned.moved_front (htag : TagName tag) {cs : List Char}
    (h : Aligned text tag attr front cs front' cs' edits) :
    moved (carriedOut (removals text tag attr)) front.length = front'.length :=
  h.moved_add htag (k := 0) fun e he => (h.starts htag e he).1

end Codemod.Source
