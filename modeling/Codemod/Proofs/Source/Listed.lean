import Codemod.Proofs.Source.Contained
import Codemod.Proofs.Source.Place

/-! The items of a brace list where they stand in a text, and where they come to stand when the list is
written anew. Read from code on, an item leads to code again in both places, so its characters can be
compared one by one. -/
namespace Codemod.Source
open Text

/-! ## The list of a declaration -/

/-- A declaration whose items are those of its brace list. -/
structure ImportDecl.Listed (d : ImportDecl) : Prop where
  named : d.named.getD [] = specifiers d.braces
  opens : ∀ c ∈ d.braces.head?, c = '{'
  last : ∀ c ∈ d.braces.getLast?, isBlank c = false
  plain : ∀ c ∈ d.braces, endsClause c = false

theorem eq_append_braces_of_bracesOf {clause head braces : List Char}
    (h : bracesOf clause = some (head, braces)) : ∃ behind, clause = head ++ (braces ++ behind) ∧
      '{' ∉ head ∧ braces.head? = some '{' ∧ (braces.getLast? = some '}' ∨ behind = []) := by
  obtain ⟨i, hi, heq⟩ := Option.map_eq_some_iff.1 h
  obtain ⟨front, rest, rfl, hfront, rfl⟩ := exists_of_idxOf? hi
  obtain ⟨rfl, hbraces⟩ := Prod.mk.inj heq
  rw [List.take_left]
  rw [List.drop_left] at hbraces
  split at hbraces
  · exact ⟨[], by rw [List.append_nil, hbraces], hfront, by simp [← hbraces], .inr rfl⟩
  · next hne =>
    have hsplit : ('{' :: rest) = braces ++ (('{' :: rest).reverse.takeWhile (· != '}')).reverse := by
      rw [← hbraces, ← List.reverse_append, List.takeWhile_append_dropWhile, List.reverse_reverse]
    have hbracesNe : braces ≠ [] := by
      rw [← hbraces]
      simpa using hne
    refine ⟨_, congrArg (front ++ ·) hsplit, hfront, ?_, .inl ?_⟩
    · obtain ⟨c, tail, rfl⟩ := List.exists_cons_of_ne_nil hbracesNe
      obtain ⟨rfl, -⟩ := List.cons.inj hsplit
      rfl
    · have hlast := List.head?_dropWhile_not (· != '}') ('{' :: rest).reverse
      rw [← hbraces, List.getLast?_reverse]
      cases hhead : (('{' :: rest).reverse.dropWhile (· != '}')).head? with
      | none =>
        rw [List.head?_eq_none_iff] at hhead
        rw [hhead] at hne
        exact absurd rfl hne
      | some c =>
        rw [hhead] at hlast
        simpa using hlast

theorem specifiers_nil : specifiers [] = [] := by decide

/-- The list of a declaration stands in its text, behind no other opening brace. -/
theorem listed_of_importDecl {cs : List Char} {d : ImportDecl} {n : Nat}
    (h : importDecl none cs = some (d, n)) : d.Listed ∧ (d.braces ≠ [] → ∃ head behind,
      cs = head ++ (d.braces ++ behind) ∧ '{' ∉ head ∧ d.braces.head? = some '{' ∧
        (d.braces.getLast? = some '}' ∨ Aloof behind)) := by
  obtain ⟨s, tail, rfl⟩ := exists_shape_of_importDecl h
  obtain ⟨lead, clause, typeWord, hclause, hlead, -, hread⟩ := s.importDecl_before tail
  obtain ⟨defaultName, allNames, heq, -⟩ := withClause_eq
    ⟨s.indent, typeWord, none, none, none, [], s.module, s.quote, hasSemicolon tail⟩ rfl rfl rfl
    (trim (trimRight clause))
  rw [hread, heq] at h
  cases h
  have hplain : ∀ c ∈ trim (trimRight clause), endsClause c = false := by
    intro c hc
    exact s.clause_plain c (by rw [hclause]; simp [mem_of_mem_trimRight (mem_of_mem_trim hc)])
  cases hbraces : bracesOf (trim (trimRight clause)) with
  | none =>
    refine ⟨⟨?_, ?_, ?_, ?_⟩, fun hne => absurd rfl hne⟩
    · simp [specifiers_nil]
    · simp
    · simp
    · simp
  | some found =>
    obtain ⟨head, braces⟩ := found
    obtain ⟨behind, hsplit, hhead, hopens, hends⟩ := eq_append_braces_of_bracesOf hbraces
    have hlast : ∀ c ∈ braces.getLast?, isBlank c = false := by
      intro c hc
      rcases hends with hends | rfl
      · obtain rfl : '}' = c := by simpa [hends] using hc
        decide
      · have hend : (trim (trimRight clause)).getLast? = some c := by
          rw [hsplit, List.append_nil, List.getLast?_append, hc]
          rfl
        exact isBlank_getLast?_trim hend
    refine ⟨⟨rfl, fun c hc => ?_, hlast, fun c hc => hplain c ?_⟩, fun _ => ?_⟩
    · obtain rfl : '{' = c := by simpa [hopens] using hc
      rfl
    · rw [hsplit]
      simp [show c ∈ braces from hc]
    · obtain ⟨left, right, htrim, hleft, hright⟩ := exists_trim (trimRight clause)
      obtain ⟨gap, hgap, hblank⟩ := exists_trimRight clause
      refine ⟨s.indent ++ (importWord ++ s.blank :: (lead ++ (left ++ head))),
        behind ++ (right ++ (gap ++ moduleText s.gap s.quote s.module tail)), ?_, ?_, hopens, ?_⟩
      · rw [Shape.before, hclause, hgap, htrim, hsplit]
        simp
      · have hno {c : Char} (hc : isBlank c = true) : '{' ≠ c := by
          rintro rfl
          exact absurd hc (by decide)
        simp only [List.mem_append, List.mem_cons, not_or]
        exact ⟨fun hm => hno (isBlank_of_isSpaceOrTab (s.indent_space _ hm)) rfl, by decide,
          hno s.isBlank_blank, not_mem_lead hlead (by decide) (by decide),
          fun hm => hno (hleft _ hm) rfl, hhead⟩
      · refine hends.imp_right ?_
        rintro rfl
        have hword : Aloof (moduleText s.gap s.quote s.module tail) := by
          rintro c ⟨⟩
          exact ⟨by decide, by decide⟩
        exact (hword.blanks_append hblank).blanks_append hright

/-! ## Items and their offsets -/

theorem exists_unbraced (cs : List Char) : ∃ closed, cs = cs.takeWhile isBrace ++ (unbraced cs ++ closed) ∧
    (∀ c ∈ closed, isBrace c = true) ∧ ∀ c ∈ (unbraced cs).getLast?, isBrace c = false := by
  refine ⟨((cs.dropWhile isBrace).reverse.takeWhile isBrace).reverse, ?_, fun c hc => ?_, fun c hc => ?_⟩
  · rw [unbraced, ← List.reverse_append, List.takeWhile_append_dropWhile, List.reverse_reverse,
      List.takeWhile_append_dropWhile]
  · exact List.mem_takeWhile_imp (List.mem_reverse.1 hc)
  · rw [unbraced, List.getLast?_reverse] at hc
    have hhead := List.head?_dropWhile_not isBrace (cs.dropWhile isBrace).reverse
    rwa [Option.mem_def.1 hc] at hhead

theorem joinWith_pieces (cs : List Char) : joinWith [','] (pieces (· == ',') cs) = cs := by
  induction cs with
  | nil => rfl
  | cons c cs ih =>
    obtain ⟨first, rest, heq⟩ := List.exists_cons_of_ne_nil (pieces_ne_nil (· == ',') cs)
    by_cases hc : c = ','
    · subst hc
      rw [pieces_sep (by decide), joinWith_cons _ _ (by simp [heq]), ih]
      rfl
    · rw [pieces_cons (by simpa using hc) heq, joinWith_cons_cons, ← heq, ih]

theorem joinWith_split (sep : List Char) (before : List (List Char)) (t : List Char)
    (after : List (List Char)) : joinWith sep (before ++ t :: after) =
      before.flatMap (· ++ sep) ++ (t ++ after.flatMap (sep ++ ·)) := by
  have hafter (t : List Char) (after : List (List Char)) :
      joinWith sep (t :: after) = t ++ after.flatMap (sep ++ ·) := by
    induction after generalizing t with
    | nil => simp [joinWith_singleton]
    | cons u after ih =>
      rw [joinWith_cons sep t (by simp), ih]
      simp
  induction before with
  | nil => exact hafter t after
  | cons u before ih =>
    rw [List.cons_append, joinWith_cons sep u (by simp), ih]
    simp

/-- Texts with a comma between two of them, each with its offset. -/
def offsets (start : Nat) : List (List Char) → List (Nat × List Char)
  | [] => []
  | t :: ts => (start, t) :: offsets (start + t.length + 1) ts

theorem of_mem_offsets {start : Nat} {ts : List (List Char)} {x : Nat × List Char}
    (h : x ∈ offsets start ts) : ∃ before after, ts = before ++ x.2 :: after ∧
      x.1 = start + (before.flatMap (· ++ [','])).length := by
  induction ts generalizing start with
  | nil => cases h
  | cons t ts ih =>
    rcases List.mem_cons.1 h with rfl | h
    · exact ⟨[], ts, rfl, rfl⟩
    · obtain ⟨before, after, rfl, hstart⟩ := ih h
      refine ⟨t :: before, after, rfl, ?_⟩
      rw [hstart]
      simp
      omega

/-- Where the brace list of a declaration begins. -/
def listStart (text : List Char) (f : Found ImportDecl) : Nat :=
  f.start + ((text.drop f.start).takeWhile (· != '{')).length

/-- The texts of the items of a declaration, each with its offset. -/
def listedItems (text : List Char) (f : Found ImportDecl) : List (Nat × List Char) :=
  offsets (listStart text f + (f.value.braces.takeWhile isBrace).length)
    (pieces (· == ',') (unbraced f.value.braces))

theorem mem_pieces_of_listed {text : List Char} {f : Found ImportDecl} {x : Nat × List Char}
    (hx : x ∈ listedItems text f) : x.2 ∈ pieces (· == ',') (unbraced f.value.braces) := by
  obtain ⟨before, after, hpieces, -⟩ := of_mem_offsets hx
  simp [hpieces]

theorem snd_of_mem_listedItems {text : List Char} {f : Found ImportDecl} (hnil : f.value.braces = [])
    {x : Nat × List Char} (hx : x ∈ listedItems text f) : x.2 = [] := by
  have hmem := mem_pieces_of_listed hx
  rw [hnil] at hmem
  simpa [unbraced, pieces] using hmem

/-! ## Items in code -/

theorem readsOver_comma {t : List Char} (hplain : ∀ c ∈ t, Unquoted c)
    (hclosed : framesAfter [] t [','] = some []) : ReadsOver (t ++ [',']) := by
  intro tail
  rw [framesAfter_concat, framesAfter_eq_of_alike hplain (alikeAhead_cons ',' tail []), hclosed]
  rfl

theorem unquoted_of_plain {t : List Char} (hplain : ∀ c ∈ t, endsClause c = false) (htemplate : '`' ∉ t) :
    ∀ c ∈ t, Unquoted c := by
  intro c hc
  refine ⟨(Bool.or_eq_false_iff.1 (hplain c hc)).2, ?_⟩
  rintro rfl
  exact htemplate hc

/-- Comments in a list are closed in front of the comma behind them, and no template begins there. -/
structure ClosedList (braces : List Char) : Prop where
  template : '`' ∉ braces
  closed : ∀ t ∈ pieces (· == ',') (unbraced braces), framesAfter [] t [','] = some []

instance (braces : List Char) : Decidable (ClosedList braces) :=
  decidable_of_iff ('`' ∉ braces ∧ ∀ t ∈ pieces (· == ',') (unbraced braces), framesAfter [] t [','] = some [])
    ⟨fun h => ⟨h.1, h.2⟩, fun h => ⟨h.template, h.closed⟩⟩

theorem mem_braces_of_mem_piece {braces t : List Char} (ht : t ∈ pieces (· == ',') (unbraced braces))
    {c : Char} (hc : c ∈ t) : c ∈ braces := by
  obtain ⟨closed, heq, -⟩ := exists_unbraced braces
  rw [heq]
  simp [mem_of_mem_pieces ht hc]

theorem ClosedList.unquoted {d : ImportDecl} (h : ClosedList d.braces) (hd : d.Listed) {t : List Char}
    (ht : t ∈ pieces (· == ',') (unbraced d.braces)) : ∀ c ∈ t, Unquoted c :=
  unquoted_of_plain (fun c hc => hd.plain c (mem_braces_of_mem_piece ht hc))
    fun hm => h.template (mem_braces_of_mem_piece ht hm)

theorem aloof_of_isBrace {c : Char} (h : isBrace c = true) (rest : List Char) : Aloof (c :: rest) := by
  rintro d hd
  obtain rfl : c = d := by simpa using hd
  constructor <;> (rintro rfl; exact absurd h (by decide))

/-- The list of a declaration begins with the first opening brace behind its beginning. -/
theorem exists_listStart {text : List Char} {f : Found ImportDecl} (hf : f ∈ imports text)
    (hbraces : f.value.braces ≠ []) : ∃ front behind, text = front ++ (f.value.braces ++ behind) ∧
      front.length = listStart text f ∧ f.value.braces.head? = some '{' ∧
        (f.value.braces.getLast? = some '}' ∨ Aloof behind) := by
  obtain ⟨p⟩ := nonempty_place hf
  obtain ⟨head, behind, htext, hhead, hopens, hends⟩ := (listed_of_importDecl p.read).2 hbraces
  refine ⟨p.front ++ head, behind, ?_, ?_, hopens, hends⟩
  · rw [List.append_assoc, ← htext]
    exact p.text_eq
  · have hdrop : text.drop f.start = head ++ (f.value.braces ++ behind) := by
      conv_lhs => rw [p.text_eq, p.start_eq, List.drop_left, htext]
    have htake : (text.drop f.start).takeWhile (· != '{') = head := by
      rw [hdrop]
      refine takeWhile_span (fun c hc => ?_) fun c hc => ?_
      · simp only [bne_iff_ne]
        rintro rfl
        exact hhead hc
      · rw [List.head?_append, hopens] at hc
        obtain rfl : '{' = c := by simpa using hc
        rfl
    rw [listStart, htake, p.start_eq, List.length_append]

/-- In a list that begins in code each item begins in code. -/
theorem exists_place_of_listed {text : List Char} {f : Found ImportDecl} (hf : f ∈ imports text)
    (hlist : ¬ Covered text (listStart text f)) (hclosed : ClosedList f.value.braces) {x : Nat × List Char}
    (hx : x ∈ listedItems text f) (hne : x.2 ≠ []) : ∃ front behind,
      text = front ++ (x.2 ++ behind) ∧ front.length = x.1 ∧ Aloof behind ∧
        framesAfter [] front (x.2 ++ behind) = some [] := by
  obtain ⟨p⟩ := nonempty_place hf
  have hlisted := (listed_of_importDecl p.read).1
  obtain ⟨before, after, hpieces, hstart⟩ := of_mem_offsets hx
  have hunbraced : unbraced f.value.braces ≠ [] := by
    intro hnil
    have hmem := mem_pieces_of_listed hx
    rw [hnil] at hmem
    exact hne (by simpa [pieces] using hmem)
  obtain ⟨front, behind, htext, hlen, hopens, hends⟩ := exists_listStart hf
    fun hnil => hunbraced (by simp [hnil, unbraced])
  obtain ⟨closed, hsplit, hclosers, hlast⟩ := exists_unbraced f.value.braces
  generalize hopened : f.value.braces.takeWhile isBrace = opened at hsplit hstart
  have hitems : unbraced f.value.braces =
      before.flatMap (· ++ [',']) ++ (x.2 ++ after.flatMap ([','] ++ ·)) := by
    rw [← joinWith_split, ← hpieces, joinWith_pieces]
  have hall : text = (front ++ (opened ++ before.flatMap (· ++ [',']))) ++
      (x.2 ++ (after.flatMap ([','] ++ ·) ++ (closed ++ behind))) := by
    rw [htext]
    conv_lhs => rw [hsplit, hitems]
    simp
  refine ⟨_, _, hall, ?_, ?_, ?_⟩
  · rw [List.length_append, List.length_append, hlen, hstart, Nat.add_assoc]
  · cases after with
    | cons t after =>
      rintro c ⟨⟩
      exact ⟨by decide, by decide⟩
    | nil =>
      cases closed with
      | cons c closed => exact aloof_of_isBrace (hclosers c (by simp)) _
      | nil =>
        -- the list has no closing brace, so it ends with its last item
        refine hends.resolve_left fun hbrace => ?_
        rw [hsplit, List.append_nil, List.getLast?_append_of_ne_nil _ hunbraced] at hbrace
        exact absurd (hlast _ hbrace) (by decide)
  · have hbefore : ReadsOver (opened ++ before.flatMap (· ++ [','])) := by
      refine ReadsOver.append (readsOver_of_inactive fun c hc => ?_) (readsOver_flatMap fun t ht => ?_)
      · rw [← hopened] at hc
        exact inactive_of_isBrace (List.mem_takeWhile_imp hc)
      · have ht : t ∈ pieces (· == ',') (unbraced f.value.braces) := by simp [hpieces, ht]
        exact readsOver_comma (hclosed.unquoted hlisted ht) (hclosed.closed t ht)
    have hfront : framesAfter [] front (f.value.braces ++ behind) = some [] := by
      obtain ⟨braces, hbraces⟩ := List.head?_eq_some_iff.1 hopens
      rw [hbraces] at htext ⊢
      rw [← hlen, htext] at hlist
      exact (not_covered_iff_framesAfter (by decide) rfl).1 hlist
    have hrest : f.value.braces ++ behind = opened ++ before.flatMap (· ++ [',']) ++
        (x.2 ++ (after.flatMap ([','] ++ ·) ++ (closed ++ behind))) := by
      conv_lhs => rw [hsplit, hitems]
      simp
    rw [framesAfter_append, ← hrest, hfront, Option.bind_some, hbefore]

end Codemod.Source
