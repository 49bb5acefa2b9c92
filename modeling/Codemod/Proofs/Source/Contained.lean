import Codemod.Proofs.Source.Comment
import Codemod.Proofs.Source.Renamed
import Codemod.Proofs.Source.Reread

/-! Comments in a brace list that is written anew. An item whose comments are closed in front of its comma is
closed again where it is written, for a line comment in it means that the list keeps its lines. So what
stands behind the item is code, whatever the item holds. -/
namespace Codemod.Source
open Text

/-! ## Texts that lead from code to code -/

theorem ReadsOver.append {cs ds : List Char} (hcs : ReadsOver cs) (hds : ReadsOver ds) :
    ReadsOver (cs ++ ds) := by
  intro tail
  rw [framesAfter_append, hcs, Option.bind_some, hds]

theorem readsOver_nil : ReadsOver [] := fun _ => rfl

theorem readsOver_flatMap {α : Type} {f : α → List Char} {items : List α}
    (h : ∀ item ∈ items, ReadsOver (f item)) : ReadsOver (items.flatMap f) := by
  induction items with
  | nil => exact readsOver_nil
  | cons item items ih =>
    rw [List.flatMap_cons]
    exact (h item (by simp)).append (ih fun item' hitem => h item' (by simp [hitem]))

/-- A character that opens neither a literal nor a comment. -/
def Inactive (c : Char) : Prop := Unquoted c ∧ c ≠ '/'

instance (c : Char) : Decidable (Inactive c) := inferInstanceAs (Decidable (_ ∧ _))

theorem readsOver_of_inactive {cs : List Char} (h : ∀ c ∈ cs, Inactive c) : ReadsOver cs := by
  intro tail
  induction cs with
  | nil => rfl
  | cons c cs ih =>
    obtain ⟨hc, hslash⟩ := h c (by simp)
    rw [framesAfter, step, inertFrames_unquoted hc, if_neg (by simp [hslash]), if_neg (by simp [hslash]),
      Option.bind_some, ih fun d hd => h d (by simp [hd])]

theorem inactive_of_isBlank {c : Char} (h : isBlank c = true) : Inactive c :=
  ⟨unquoted_of_isBlank h, (aloof_of_isBlank h [] c rfl).1⟩

theorem inactive_of_isBrace {c : Char} (h : isBrace c = true) : Inactive c := by
  rcases Bool.or_eq_true_iff.1 h with h | h
  · obtain rfl : c = '{' := by simpa using h
    exact ⟨⟨by decide, by decide⟩, by decide⟩
  · obtain rfl : c = '}' := by simpa using h
    exact ⟨⟨by decide, by decide⟩, by decide⟩

/-- A quoted text without a backslash is closed by its second quote. -/
theorem readsOver_quoted {quote : Char} (hquote : isQuote quote = true) {name : List Char}
    (hname : IsModule name) (hplain : '\\' ∉ name) : ReadsOver (quote :: (name ++ [quote])) := by
  have hcalm : ∀ c ∈ name, Calm quote c := by
    intro c hc
    refine ⟨?_, (hname.chars c hc).2, fun heq => hplain (heq ▸ hc)⟩
    rintro rfl
    rw [(hname.chars c hc).1] at hquote
    cases hquote
  have hback : quote ≠ '\\' := by
    rintro rfl
    exact absurd hquote (by decide)
  intro tail
  have hcloses : closesOnLine quote (name ++ [quote] ++ tail) = true := by
    rw [List.append_assoc, closesOnLine_append hcalm]
    simp [closesOnLine_cons hback]
  have hopens : inertFrames quote (name ++ [quote] ++ tail) = [.quoted quote] := by
    have hslash : quote ≠ '/' := by
      rintro rfl
      exact absurd hquote (by decide)
    simp only [inertFrames, hslash, if_false, quoteFrames, hquote, if_true, hcloses]
  have hinside : ∀ cs : List Char, (∀ c ∈ cs, Calm quote c) → ∀ rest,
      framesAfter [.quoted quote] cs rest = some [.quoted quote] := by
    intro cs hcs rest
    induction cs with
    | nil => rfl
    | cons c cs ih =>
      obtain ⟨hne, -, hslash⟩ := hcs c (by simp)
      rw [framesAfter, step, if_neg hslash, if_neg hne, Option.bind_some,
        ih fun d hd => hcs d (by simp [hd])]
  rw [framesAfter, step, hopens, Option.bind_some, framesAfter_append, hinside name hcalm]
  simp [framesAfter, step, hback]

/-! ## Texts between separators -/

/-- Read from code on, the text leaves nothing open but a line comment, and that only when a line feed
follows. -/
def Contained (onLines : Prop) (cs : List Char) : Prop :=
  ∀ rest, Aloof rest → framesAfter [] cs rest = some [] ∨
    (onLines ∧ framesAfter [] cs rest = some [.lineComment])

/-- Behind the separator there is code, also behind a line comment that is to have its line. -/
def Resets (onLines : Prop) (sep : List Char) : Prop :=
  ∀ tail, framesAfter [] sep tail = some [] ∧ (onLines → framesAfter [.lineComment] sep tail = some [])

theorem resets_of_inactive {onLines : Prop} {sep : List Char} (h : ∀ c ∈ sep, Inactive c)
    (hfeed : onLines → '\n' ∈ sep) : Resets onLines sep := by
  intro tail
  refine ⟨readsOver_of_inactive h tail, fun hon => ?_⟩
  have hin := hfeed hon
  clear hfeed
  induction sep with
  | nil => cases hin
  | cons c sep ih =>
    have hsep : ∀ d ∈ sep, Inactive d := fun d hd => h d (by simp [hd])
    by_cases hc : c = '\n'
    · rw [framesAfter, step, if_pos hc, Option.bind_some, readsOver_of_inactive hsep tail]
    · rw [framesAfter, step, if_neg hc, Option.bind_some]
      exact ih hsep ((List.mem_cons.1 hin).resolve_left (Ne.symm hc))

theorem Contained.readsOver {onLines : Prop} {cs sep : List Char} (h : Contained onLines cs)
    (hsep : Resets onLines sep) (haloof : ∀ tail, Aloof (sep ++ tail)) : ReadsOver (cs ++ sep) := by
  intro tail
  rw [framesAfter_append]
  rcases h _ (haloof tail) with hcode | ⟨hon, hline⟩
  · rw [hcode, Option.bind_some, (hsep tail).1]
  · rw [hline, Option.bind_some, (hsep tail).2 hon]

theorem ReadsOver.contained {cs : List Char} (h : ReadsOver cs) (onLines : Prop) :
    Contained onLines cs := fun rest _ => .inl (h rest)

/-! ## Items -/

theorem spaced_append {ws vs : List (List Char)} (hws : ws ≠ []) (hvs : vs ≠ []) :
    spaced (ws ++ vs) = spaced ws ++ ' ' :: spaced vs := by
  induction ws with
  | nil => exact absurd rfl hws
  | cons w ws ih =>
    by_cases hnil : ws = []
    · subst hnil
      rw [List.singleton_append, spaced_cons w hvs, spaced_singleton]
    · rw [List.cons_append, spaced_cons w (by simp [hnil]), spaced_cons w hnil, ih hnil]
      simp

/-- An item is rendered to its words. -/
theorem Specifier.render_eq_spaced {text : List Char} {s : Specifier}
    (h : Specifier.ofText? text = some s) : s.render = spaced s.itemWords := by
  have hnames {front behind : List (List Char)} (hfront : ∀ w ∈ front, IsWord w) (hne : front ≠ [])
      (hbehind : ∀ w ∈ behind, IsWord w) (hne' : behind ≠ []) (typeOnly : Bool) :
      (⟨spaced front, spaced behind, typeOnly⟩ : Specifier).render =
        spaced (⟨spaced front, spaced behind, typeOnly⟩ : Specifier).itemWords := by
    have hsplit : spaced (front ++ if spaced behind = spaced front then [] else "as".toList :: behind) =
        spaced front ++ if spaced behind = spaced front then [] else asWord ++ spaced behind := by
      split
      · simp
      · rw [spaced_append hne (by simp), spaced_cons _ hne']
        simp [asWord]
    rw [render, itemWords]
    dsimp only
    rw [words_spaced hfront, words_spaced hbehind, List.append_assoc, ← hsplit]
    cases typeOnly with
    | false => rfl
    | true =>
      rw [if_pos rfl, if_pos rfl, List.singleton_append, spaced_cons _ (by simp [hne])]
      simp
  have hofNames {ws : List (List Char)} (hws : ∀ w ∈ ws, IsWord w) (hne : ws ≠ []) (typeOnly : Bool) :
      (ofNames typeOnly ws).render = spaced (ofNames typeOnly ws).itemWords := by
    cases hsplit : splitAs ws with
    | none =>
      rw [ofNames, hsplit]
      exact hnames hws hne hws hne typeOnly
    | some found =>
      obtain ⟨hfront, hbehind⟩ := isWord_of_splitAs hws hsplit
      obtain ⟨-, hne, hne', -⟩ := of_splitAs hsplit
      rw [ofNames, hsplit]
      exact hnames hfront hne hbehind hne' typeOnly
  have hwords : ∀ w ∈ words text, IsWord w := fun w hw => (isWord_of_mem_words hw).1
  rw [Specifier.ofText?_eq] at h
  split at h
  · cases h
  · next hne =>
    cases h
    unfold ofWords
    split
    · next htype => exact hofNames (fun w hw => hwords w (List.mem_of_mem_tail hw)) htype.2 true
    · exact hofNames hwords hne false

/-- Nothing of the text of an item is left out when it is rendered, as it is of `a as a`. -/
def Specifier.Whole (t : List Char) (s : Specifier) : Prop := s.itemWords = words t

instance (t : List Char) (s : Specifier) : Decidable (s.Whole t) := inferInstanceAs (Decidable (_ = _))

/-- An item is rendered as its text with the blanks run together. -/
theorem Specifier.Whole.exists_collapsed {t : List Char} {s : Specifier} (h : s.Whole t)
    (hread : Specifier.ofText? t = some s) : ∃ core gap, t = core ++ gap ∧
      (∀ c ∈ gap, isBlank c = true) ∧ s.render = collapsed core := by
  obtain ⟨left, gap, heq, hleft, hgap⟩ := exists_trim t
  have htext : t = (left ++ trim t) ++ gap := by rw [List.append_assoc, ← heq]
  refine ⟨left ++ trim t, gap, htext, hgap, ?_⟩
  have hwords : words (left ++ trim t) = words t := by
    conv_rhs => rw [htext]
    exact (words_append_blanks _ hgap).symm
  have hrender : s.render = spaced (words t) := by rw [Specifier.render_eq_spaced hread, h]
  rw [hrender, ← hwords]
  obtain ⟨space, hspace, hcollapsed⟩ := collapsed_eq (left ++ trim t)
  -- the text ends in a word, so there is no space behind it
  rcases hspace with rfl | rfl
  · rw [hcollapsed, List.append_nil]
  · exfalso
    rcases List.eq_nil_or_concat (trim t) with hnil | ⟨init, c, hlast⟩
    · have hnone : words t = [] := by
        rw [← hwords, hnil, List.append_nil]
        simpa using words_append_blanks [] hleft
      rw [Specifier.ofText?_eq, if_pos hnone] at hread
      cases hread
    · rw [List.concat_eq_append] at hlast
      have hc : isBlank c = false := isBlank_getLast?_trim (by rw [hlast]; exact List.getLast?_concat)
      rw [hlast, ← List.append_assoc, collapsed_concat _ hc] at hcollapsed
      obtain ⟨-, hlast⟩ := List.append_inj' hcollapsed rfl
      obtain rfl : c = ' ' := by simpa using hlast
      exact absurd hc (by decide)

theorem framesAfter_line {cs : List Char} (h : '\n' ∉ cs) (rest : List Char) :
    framesAfter [.lineComment] cs rest = some [.lineComment] := by
  induction cs with
  | nil => rfl
  | cons c cs ih =>
    rw [List.mem_cons, not_or] at h
    rw [framesAfter, step, if_neg (Ne.symm h.1), Option.bind_some, ih h.2]

/-- A line comment that does not reach the end of a text has its line feed there. -/
theorem feed_mem_of_opensLine {cs rest : List Char} (hcs : ∀ c ∈ cs, Unquoted c) (h : OpensLine cs)
    (hclosed : framesAfter [] cs rest = some []) : '\n' ∈ cs := by
  obtain ⟨front, tail, rfl, hfront⟩ := h
  by_contra hno
  have hopen : framesAfter [] front ('/' :: '/' :: (tail ++ rest)) = some [] := by
    rw [← hfront]
    exact framesAfter_eq_of_alike (fun c hc => hcs c (by simp [hc])) (alikeAhead_cons _ _ _)
  have htail : '\n' ∉ '/' :: tail := fun hm => hno (by
    rw [List.mem_append]
    exact .inr (List.mem_cons_of_mem _ hm))
  have hstep : step [] '/' ('/' :: tail ++ rest) = some [.lineComment] := rfl
  rw [framesAfter_append, List.cons_append, List.cons_append, hopen, Option.bind_some, framesAfter, hstep,
    Option.bind_some, framesAfter_line htail] at hclosed
  cases hclosed

/-- What can be left open in front of what is aloof: nothing, a line comment or one with an end. -/
theorem Kept.of_aloof {cs rest : List Char} {frames frames' : List Frame} (h : Kept cs rest frames frames')
    (hrest : Aloof rest) (hline : ¬ OpensLine cs) : frames = [] ∨ frames = [.blockComment] := by
  cases h.comments with
  | code => exact .inl rfl
  | line => exact absurd rfl (hrest _ (h.begins hline rfl).1).1
  | block => exact .inr rfl
  | entering => exact absurd hrest (h.second rfl)
  | leaving => exact absurd hrest (h.second rfl)

/-- An item whose comments are closed in front of its comma is contained where it is written. -/
theorem contained_render {t : List Char} {s : Specifier} (hplain : ∀ c ∈ t, Unquoted c)
    (hclosed : framesAfter [] t [','] = some []) (hread : Specifier.ofText? t = some s) (hwhole : s.Whole t)
    {onLines : Prop} (hlines : '\n' ∈ t → onLines) : Contained onLines s.render := by
  obtain ⟨core, gap, rfl, hgap, hrender⟩ := hwhole.exists_collapsed hread
  have hcore : ∀ c ∈ core, Unquoted c := fun c hc => hplain c (by simp [hc])
  have hcomma : Aloof [','] := by
    rintro c ⟨⟩
    exact ⟨by decide, by decide⟩
  have hend : Aloof (gap ++ [',']) := hcomma.blanks_append hgap
  intro rest hrest
  obtain ⟨frames, frames', hframes, hframes', hkept⟩ := exists_kept hcore (.of_aloof hend hrest)
  rw [hrender, hframes']
  by_cases hline : OpensLine core
  · rw [hkept.swallowed hline]
    exact .inr ⟨hlines (feed_mem_of_opensLine hplain (hline.append hcore gap) hclosed), rfl⟩
  · rw [hkept.same hline]
    rw [framesAfter_append, hframes, Option.bind_some] at hclosed
    have hstay : ∀ cs : List Char, (∀ c ∈ cs, isBlank c = true) →
        framesAfter frames cs [','] = some frames := by
      intro cs hcs
      induction cs with
      | nil => rfl
      | cons c cs ih =>
        rw [framesAfter, step_blank (hkept.of_aloof hend hline) (hcs c (by simp)), Option.bind_some,
          ih fun d hd => hcs d (by simp [hd])]
    rw [hstay gap hgap] at hclosed
    exact .inl hclosed

/-! ## Characters of an item -/

/-- A character of an item is code where the item is written exactly when it was code where it was read and
no line comment begins in front of it in the item. -/
theorem live_char_iff {front front' behind behind' t u v : List Char} {s : Specifier} {c : Char}
    (hfront : framesAfter [] front (t ++ behind) = some [])
    (hfront' : framesAfter [] front' (s.render ++ behind') = some []) (hbehind : Aloof behind)
    (hbehind' : Aloof behind') (hplain : ∀ c ∈ t, Unquoted c) (hread : Specifier.ofText? t = some s)
    (hwhole : s.Whole t) (ht : t = u ++ c :: v) (hc : isBlank c = false) :
    ¬ Covered (front' ++ (s.render ++ behind')) (front'.length + (collapsed u).length) ↔
      ¬ Covered (front ++ (t ++ behind)) (front.length + u.length) ∧ ¬ OpensLine u := by
  obtain ⟨core, gap, heq, hgap, hrender⟩ := hwhole.exists_collapsed hread
  -- the character stands in front of the blanks at the end
  obtain ⟨v', rfl, rfl⟩ : ∃ v', core = u ++ c :: v' ∧ v = v' ++ gap := by
    rcases List.append_eq_append_iff.1 (ht.symm.trans heq) with ⟨w, rfl, hw⟩ | ⟨w, rfl, hw⟩
    · cases w with
      | nil =>
        rw [List.nil_append] at hw
        exact absurd (hgap c (by simp [← hw])) (by simp [hc])
      | cons d w =>
        obtain ⟨rfl, rfl⟩ := List.cons.inj hw
        exact ⟨w, rfl, rfl⟩
    · exact absurd (hgap c (by simp [hw])) (by simp [hc])
  obtain ⟨z, hz, halike⟩ := exists_collapsed_cons u hc v'
  have hu : ∀ d ∈ u, Unquoted d := fun d hd => hplain d (by simp [ht, hd])
  have hc' : Unquoted c := hplain c (by simp [ht])
  have hfeed : c ≠ '\n' := by
    rintro rfl
    exact absurd hc (by decide)
  have hahead : AlikeAhead (v' ++ gap ++ behind) (z ++ behind') := by
    rw [List.append_assoc]
    exact halike _ _ (.of_aloof (hbehind.blanks_append hgap) hbehind')
  rw [ht] at hfront ⊢
  rw [hrender, hz] at hfront' ⊢
  obtain ⟨frames, frames', hframes, hframes', hkept⟩ :=
    exists_kept hu (alikeAhead_cons c (v' ++ gap ++ behind) (z ++ behind'))
  have hlive {front cs rest : List Char} {frames : List Frame}
      (hfront : framesAfter [] front (cs ++ c :: rest) = some [])
      (hframes : framesAfter [] cs (c :: rest) = some frames) :
      ¬ Covered (front ++ (cs ++ c :: rest)) (front.length + cs.length) ↔
        frames = [] ∧ inertFrames c rest = [] := by
    rw [← List.append_assoc, ← List.length_append, not_covered_iff_opens hfeed, framesAfter_append, hfront,
      Option.bind_some, hframes, Option.some_inj]
  simp only [List.append_assoc, List.cons_append] at hfront hfront' hframes hframes' ⊢
  rw [hlive hfront' hframes', hlive hfront hframes]
  have hopens : inertFrames c (z ++ behind') = inertFrames c (v' ++ (gap ++ behind)) := by
    rw [← List.append_assoc, inertFrames_unquoted hc', inertFrames_unquoted hc']
    simp only [hahead '/' (.inl rfl), hahead '*' (.inr rfl)]
  rw [hopens]
  by_cases hline : OpensLine u
  · rw [hkept.swallowed hline]
    simp [hline]
  · rw [hkept.same hline]
    simp [hline]

end Codemod.Source
