import Codemod.Proofs.Source.Listed
import Codemod.Proofs.Source.LiveImports

/-! Comments in the brace lists of imports that are edited. The items of a list are written anew with their
comments, and what stands behind a line comment in its item comes to stand in the comment; all other code
of the items stays code. -/
namespace Codemod.Source
open Text

/-! ## A declaration that is written anew -/

/-- A declaration that opens no comment outside its brace list and closes those in it, item by item. -/
structure ImportDecl.Tidy (d : ImportDecl) (items : List Specifier) : Prop where
  heads : ∀ item ∈ d.headItems, ∀ c ∈ item, Inactive c
  module : IsModule d.module
  unescaped : '\\' ∉ d.module
  list : ClosedList d.braces
  whole : ∀ t ∈ pieces (· == ',') (unbraced d.braces), ∀ s ∈ Specifier.ofText? t, s.Whole t
  added : ∀ s ∈ items, s ∉ d.named.getD [] → ∀ c ∈ s.render, Inactive c

section

variable {d : ImportDecl} {items : List Specifier}

theorem ImportDecl.Listed.feed_mem (hd : d.Listed) {t : List Char}
    (ht : t ∈ pieces (· == ',') (unbraced d.braces)) (hfeed : '\n' ∈ t) :
    '\n' ∈ (d.braces.drop 1).dropLast := by
  have hmem : '\n' ∈ d.braces := mem_braces_of_mem_piece ht hfeed
  cases hbraces : d.braces with
  | nil => simp [hbraces] at hmem
  | cons c rest =>
    have hopens := hd.opens c (by simp [hbraces])
    rw [hbraces, hopens] at hmem
    have hrest : '\n' ∈ rest := (List.mem_cons.1 hmem).resolve_left (by decide)
    rcases List.eq_nil_or_concat rest with rfl | ⟨init, last, rfl⟩
    · cases hrest
    · rw [List.concat_eq_append] at hrest hbraces ⊢
      have hlast := hd.last last (by rw [hbraces, ← List.cons_append]; exact List.getLast?_concat)
      rw [List.drop_one, List.tail_cons, List.dropLast_concat]
      refine (List.mem_append.1 hrest).resolve_right fun hm => ?_
      obtain rfl := List.mem_singleton.1 hm
      exact absurd hlast (by decide)

/-- Each item is contained in its place. -/
theorem ImportDecl.Tidy.contained (h : d.Tidy items) (hd : d.Listed) : ∀ s ∈ items,
    Contained ('\n' ∈ (d.braces.drop 1).dropLast) s.render := by
  intro s hs
  by_cases hnamed : s ∈ d.named.getD []
  · rw [hd.named] at hnamed
    obtain ⟨t, ht, hread⟩ := List.mem_filterMap.1 hnamed
    exact contained_render (h.list.unquoted hd ht) (h.list.closed t ht) hread (h.whole t ht s hread)
      (hd.feed_mem ht)
  · exact (readsOver_of_inactive (h.added s hs hnamed)).contained _

/-- What is written in front of the items of a clause. -/
def ImportDecl.leadText (d : ImportDecl) : List Char := d.indent ++ ("import ".toList ++ d.typeWord)

/-- What is written behind a clause. -/
def ImportDecl.endText (d : ImportDecl) : List Char :=
  " from ".toList ++ (d.quote :: (d.module ++ [d.quote]) ++ if d.semicolon then [';'] else [])

theorem ImportDecl.render_eq (d : ImportDecl) (items : List Specifier) : d.render items =
    d.leadText ++ (joinWith ", ".toList (d.clauseItems items) ++ d.endText) := by
  simp [render, clauseItems, leadText, endText]

theorem inactive_of_forall {cs : List Char} (h : cs.all (fun c => !isQuote c && c != '`' && c != '/') = true) :
    ∀ c ∈ cs, Inactive c := by
  intro c hc
  have hall := List.all_eq_true.1 h c hc
  simp only [Bool.and_eq_true, Bool.not_eq_true', bne_iff_ne] at hall
  exact ⟨hall.1, hall.2⟩

theorem ImportDecl.IsRead.readsOver_leadText (hd : d.IsRead) : ReadsOver d.leadText := by
  refine readsOver_of_inactive fun c hc => ?_
  rcases List.mem_append.1 hc with hc | hc
  · exact inactive_of_isBlank (isBlank_of_isSpaceOrTab (hd.renderable.indent c hc))
  rcases List.mem_append.1 hc with hc | hc
  · exact inactive_of_forall (by decide) c hc
  · rcases hd.typeWord with hnil | ⟨b, gap, heq, hb, hgap⟩
    · rw [hnil] at hc
      cases hc
    · rw [heq, List.mem_append, List.mem_cons] at hc
      rcases hc with hc | rfl | hc
      · exact inactive_of_forall (by decide) c hc
      · exact inactive_of_isBlank hb
      · exact inactive_of_isBlank (hgap c hc)

theorem ImportDecl.Tidy.readsOver_endText (h : d.Tidy items) (hd : d.IsRead) : ReadsOver d.endText := by
  have hfrom : ReadsOver " from ".toList := readsOver_of_inactive (inactive_of_forall (by decide))
  have hend : ReadsOver (if d.semicolon then [';'] else []) := by
    refine readsOver_of_inactive fun c hc => ?_
    split at hc
    · exact inactive_of_forall (by decide) c hc
    · cases hc
  exact hfrom.append ((readsOver_quoted hd.renderable.quote h.module h.unescaped).append hend)

/-- What is written in front of an item that has others in front of it. -/
def itemLead (opening gap : List Char) (left : List Specifier) : List Char :=
  opening ++ left.flatMap fun t => t.render ++ ',' :: gap

/-- The items of a list where they are written: each begins in code, and no comment goes on across its
end. -/
structure Written (items : List Specifier) (text opening gap closing : List Char) : Prop where
  text_eq : text = opening ++ (joinWith (',' :: gap) (items.map Specifier.render) ++ closing)
  gap_blank : ∀ c ∈ gap, isBlank c = true
  code : ∀ left s right, items = left ++ s :: right → ReadsOver (itemLead opening gap left)
  aloof : ∀ left s right, items = left ++ s :: right → ∀ tail,
    Aloof (right.flatMap (fun t => (',' :: gap) ++ t.render) ++ (closing ++ tail))

/-- The text up to an item, the item, and what is behind it. -/
theorem Written.split {text opening gap closing : List Char} (h : Written items text opening gap closing)
    {left right : List Specifier} {s : Specifier} (hitems : items = left ++ s :: right) :
    text = itemLead opening gap left ++
      (s.render ++ (right.flatMap (fun t => (',' :: gap) ++ t.render) ++ closing)) := by
  rw [h.text_eq, hitems, List.map_append, List.map_cons, joinWith_split, List.flatMap_map,
    List.flatMap_map]
  simp [itemLead]

theorem inactive_comma : Inactive ',' := inactive_of_forall (by decide) ',' (List.mem_singleton_self _)

theorem aloof_comma (rest : List Char) : Aloof (',' :: rest) := by
  rintro c ⟨⟩
  exact ⟨by decide, by decide⟩

theorem Layout.aloof_right {braces left gap right : List Char} (h : Layout braces left gap right)
    (rest : List Char) : Aloof (right ++ '}' :: rest) := by
  have hbrace : Aloof ('}' :: rest) := aloof_of_isBrace (by decide) rest
  obtain ⟨tail, rfl | rfl, htail⟩ := h.right_end
  · exact hbrace.blanks_append htail
  · exact aloof_comma _

theorem Layout.resets_gap {braces left gap right : List Char} (h : Layout braces left gap right) :
    Resets ('\n' ∈ (braces.drop 1).dropLast) (',' :: gap) :=
  resets_of_inactive (List.forall_mem_cons.2 ⟨inactive_comma, fun c hc =>
    inactive_of_isBlank (h.gap_blank c hc)⟩) fun hon => List.mem_cons_of_mem _ (h.onLines hon).1

theorem Layout.resets_right {braces left gap right : List Char} (h : Layout braces left gap right) :
    Resets ('\n' ∈ (braces.drop 1).dropLast) (right ++ ['}']) := by
  refine resets_of_inactive (fun c hc => ?_) fun hon => List.mem_append_left _ (h.onLines hon).2
  rcases List.mem_append.1 hc with hc | hc
  · obtain ⟨tail, rfl | rfl, htail⟩ := h.right_end
    · exact inactive_of_isBlank (htail c hc)
    · rcases List.mem_cons.1 hc with rfl | hc
      · exact inactive_comma
      · exact inactive_of_isBlank (htail c hc)
  · obtain rfl := List.mem_singleton.1 hc
    exact inactive_of_isBrace (by decide)

theorem ImportDecl.Tidy.exists_written_nil (h : d.Tidy []) (hd : d.IsRead) :
    Written [] (d.render []) (d.render []) [] [] ∧ ReadsOver (d.render []) := by
  have hno (left : List Specifier) (s : Specifier) (right : List Specifier) : [] ≠ left ++ s :: right := by
    simp
  refine ⟨⟨by simp [joinWith], by simp, fun left s right heq => absurd heq (hno left s right),
    fun left s right heq => absurd heq (hno left s right)⟩, ?_⟩
  rw [d.render_eq, clauseItems_of_nil]
  refine hd.readsOver_leadText.append (ReadsOver.append (readsOver_of_inactive fun c hc => ?_)
    (h.readsOver_endText hd))
  rcases mem_of_mem_joinWith hc with hc | ⟨text, htext, hc⟩
  · exact inactive_of_forall (by decide) c hc
  · exact h.heads text htext c hc

/-- A tidy declaration is written with its items in code, and leads to code. -/
theorem ImportDecl.Tidy.exists_written (h : d.Tidy items) (hd : d.IsRead) (hlisted : d.Listed) :
    ∃ opening gap closing, Written items (d.render items) opening gap closing ∧
      ReadsOver (d.render items) := by
  by_cases hne : items = []
  · subst hne
    exact ⟨_, _, _, h.exists_written_nil hd⟩
  obtain ⟨left, gap, right, hlayout, hbraces⟩ := exists_layout items d.braces
    fun c hc => isBlank_of_isSpaceOrTab (hd.renderable.indent c hc)
  obtain ⟨front, hfront, hchars⟩ := joinWith_concat ", ".toList
    (renderBraces items d.braces d.indent) d.headItems
  have hcontained := h.contained hlisted
  have hopening : ReadsOver (d.leadText ++ (front ++ '{' :: left)) := by
    refine hd.readsOver_leadText.append (readsOver_of_inactive fun c hc => ?_)
    rcases List.mem_append.1 hc with hc | hc
    · rcases hchars c hc with hc | ⟨text, htext, hc⟩
      · exact inactive_of_forall (by decide) c hc
      · exact h.heads text htext c hc
    · rcases List.mem_cons.1 hc with rfl | hc
      · exact inactive_of_isBrace (by decide)
      · exact inactive_of_isBlank (hlayout.left_blank c hc)
  have hcode {before : List Specifier} {s : Specifier} {after : List Specifier}
      (heq : items = before ++ s :: after) :
      ReadsOver (itemLead (d.leadText ++ (front ++ '{' :: left)) gap before) :=
    hopening.append (readsOver_flatMap fun t ht =>
      (hcontained t (by simp [heq, ht])).readsOver hlayout.resets_gap fun tail => aloof_comma _)
  have hwritten : Written items (d.render items) (d.leadText ++ (front ++ '{' :: left)) gap
      (right ++ '}' :: d.endText) := by
    refine ⟨?_, hlayout.gap_blank, fun before s after heq => hcode heq, fun before s after heq tail => ?_⟩
    · rw [d.render_eq, clauseItems_of_ne_nil d hne, hfront, hbraces]
      simp
    · cases after with
      | nil =>
        simp only [List.flatMap_nil, List.nil_append, List.append_assoc, List.cons_append]
        exact hlayout.aloof_right _
      | cons t after => exact aloof_comma _
  refine ⟨_, _, _, hwritten, ?_⟩
  obtain ⟨init, last, rfl⟩ := (List.eq_nil_or_concat items).resolve_left hne
  rw [List.concat_eq_append] at hwritten hcode hcontained ⊢
  have hlast : ReadsOver (last.render ++ (right ++ ['}'])) :=
    (hcontained last (by simp)).readsOver hlayout.resets_right fun tail => by
      rw [List.append_assoc]
      exact hlayout.aloof_right tail
  have hend := (hcode rfl).append (hlast.append (h.readsOver_endText hd))
  rw [hwritten.split rfl]
  simpa using hend

end

/-! ## Behind what else is edited -/

/-- An edit at the beginning of a line in code; reading over what it takes out or puts in leads to code. -/
structure Edit.Clear (text : List Char) (e : Edit) : Prop where
  lined : Lined (text.take e.start)
  code : EndsInCode (text.take e.start)
  gone : ReadsOver ((text.drop e.start).take (e.stop - e.start))
  put : ReadsOver e.text

theorem Replaced.le_start {cursor : Nat} {edits : List Edit} {old new : List Char}
    (h : Replaced cursor edits old new) {e : Edit} (he : e ∈ edits) : cursor ≤ e.start := by
  induction h with
  | rest => cases he
  | @edit cursor e' edits old new kept covered hstart hstop later ih =>
    rcases List.mem_cons.1 he with rfl | he
    · omega
    · have := ih he
      omega

/-- What an edit puts in comes to stand in code, if this and all edits in front of it are clear. -/
theorem Replaced.exists_code {cursor : Nat} {edits : List Edit} {text old new : List Char}
    (h : Replaced cursor edits old new) {before : List Char} (htext : text = before ++ old)
    (hcursor : before.length = cursor) (hbefore : ReadsOver before) {e : Edit} (he : e ∈ edits)
    (hclear : ∀ e' ∈ edits, e'.start ≤ e.start → e'.Clear text) :
    ∃ front rest, new = front ++ (e.text ++ rest) ∧ ReadsOver front := by
  induction h generalizing before with
  | rest => cases he
  | @edit cursor e' edits old new kept covered hstart hstop later ih =>
    have hle : e'.start ≤ e.start := by
      rcases List.mem_cons.1 he with rfl | he
      · exact Nat.le_refl _
      · have := later.le_start he
        omega
    have hclear' := hclear e' (List.mem_cons_self ..) hle
    have htake : text.take e'.start = before ++ kept := by
      rw [htext, ← List.append_assoc, List.take_left' (by simp; omega)]
    -- what is kept in front of the edit leads from code to code, whatever follows
    have hkept : ReadsOver kept := by
      intro tail
      have hcode := (endsInCode_iff hclear'.lined tail).2 hclear'.code
      rwa [htake, framesAfter_append, hbefore, Option.bind_some] at hcode
    rcases List.mem_cons.1 he with rfl | he
    · exact ⟨kept, new, rfl, hkept⟩
    · have hgone : ReadsOver covered := by
        have hdrop : text.drop e'.start = covered ++ old := by
          rw [htext, ← List.append_assoc, List.drop_left' (by simp; omega)]
        have hgone := hclear'.gone
        rwa [hdrop, hstop, Nat.add_sub_cancel_left, List.take_left] at hgone
      obtain ⟨front, rest, rfl, hfront⟩ := ih (by rw [htext]; simp) (by simp; omega)
        ((hbefore.append hkept).append hgone) he fun e₁ he₁ => hclear e₁ (List.mem_cons_of_mem _ he₁)
      exact ⟨kept ++ (e'.text ++ front), rest, by simp, hkept.append (hclear'.put.append hfront)⟩

/-- A change at declarations in code, of tidy ones only. -/
inductive ImportChange.Tidy (text : List Char) : ImportChange → Prop
  | written {f : Found ImportDecl} {d : ImportDecl} {items : List Specifier}
      (live : ¬ Covered text f.start) (gone : ReadsOver ((text.drop f.start).take (f.stop - f.start)))
      (list : f.value.braces ≠ [] → ¬ Covered text (listStart text f)) (tidy : d.Tidy items) :
      Tidy text (.written f d items)
  | dropped {f : Found ImportDecl} (live : ¬ Covered text f.start)
      (gone : ReadsOver ((text.drop f.start).take (lineEnd text f.stop - f.start))) :
      Tidy text (.dropped f)
  | kept (f : Found ImportDecl) : Tidy text (.kept f)
  | added (last : Found ImportDecl) (d : ImportDecl) (item : Specifier) : Tidy text (.added last d item)

section

variable {text : List Char} {f : Found ImportDecl} {d : ImportDecl} {items : List Specifier}

theorem lined_take_start (hf : f ∈ imports text) (hlines : WholeLines text) :
    Lined (text.take f.start) := by
  obtain ⟨hfront, hend⟩ := (ImportChange.Arises.kept hf : ImportChange.Arises (imports text) [] []
    (.kept f)).front_isPrefix
  exact lined_of_isInfix hlines hfront.isInfix hend

/-- What is written for a declaration keeps its list, unless there was none. -/
theorem ImportChange.Arises.isRead {target new : List Char}
    (h : (ImportChange.written f d items).Arises (imports text) target new) (hmodule : IsModule d.module) :
    f ∈ imports text ∧ d.IsRead ∧ d.Listed ∧ (f.value.braces ≠ [] → d.braces = f.value.braces) := by
  cases h with
  | written hf hd =>
    obtain ⟨p⟩ := nonempty_place hf
    have hlisted := (listed_of_importDecl p.read).1
    rcases hd with rfl | rfl | rfl
    · exact ⟨hf, p.isRead, hlisted, fun _ => rfl⟩
    · exact ⟨hf, p.isRead.withModule hmodule, ⟨hlisted.named, hlisted.opens, hlisted.last, hlisted.plain⟩,
        fun _ => rfl⟩
    · refine ⟨hf, p.isRead.withBraces _, ?_, fun hne => by simp [ImportDecl.withBraces, hne]⟩
      by_cases hnil : f.value.braces = []
      · have hnone : f.value.named.getD [] = [] := by rw [hlisted.named, hnil, specifiers_nil]
        have hbraces : f.value.withBraces.braces = "\x7b \x7d".toList := by
          simp [ImportDecl.withBraces, hnil]
        refine ⟨?_, ?_, ?_, fun c hc => ?_⟩
        · rw [hbraces]
          exact hnone.trans rfl
        · rw [hbraces]
          rintro c ⟨⟩
          rfl
        · rw [hbraces]
          rintro c ⟨⟩
          rfl
        · rw [hbraces] at hc
          have hplain : ("\x7b \x7d".toList.all fun c => !endsClause c) = true := rfl
          simpa using List.all_eq_true.1 hplain c hc
      · have hsame : f.value.withBraces = f.value := by simp [ImportDecl.withBraces, hnil]
        rwa [hsame]

/-- The changes at or in front of a declaration that is written are clear edits. -/
theorem ImportChange.Tidy.clear {c : ImportChange} (h : c.Tidy text) {target new : List Char}
    (hc : c.Arises (imports text) target new) (hlines : WholeLines text) {e : Edit}
    (he : c.edit? text = some e) (hf : f ∈ imports text) (hstart : e.start ≤ f.start) : e.Clear text := by
  have hcode {g : Found ImportDecl} (hg : g ∈ imports text) (hlive : ¬ Covered text g.start) :
      EndsInCode (text.take g.start) := (not_covered_start_iff hg (lined_take_start hg hlines)).1 hlive
  cases h with
  | written hlive hgone _ htidy =>
    obtain ⟨hg, hd, hlisted, -⟩ := hc.isRead htidy.module
    cases he
    obtain ⟨_, _, _, -, hput⟩ := htidy.exists_written hd hlisted
    exact ⟨lined_take_start hg hlines, hcode hg hlive, hgone, hput⟩
  | dropped hlive hgone =>
    have hg := hc.place_mem
    cases he
    exact ⟨lined_take_start hg hlines, hcode hg hlive, hgone, readsOver_nil⟩
  | kept => cases he
  | added last d item =>
    -- a line is added behind all declarations
    cases hc with
    | added hlast =>
      cases he
      obtain ⟨before, after, h⟩ := List.append_of_mem hf
      obtain ⟨hstart', hlen⟩ := start_lt_stop hf
      have hend := (lineEnd_le_last h hlast).1
      have := (le_lineEnd hlen).1
      dsimp only [lineEdit] at hstart
      omega

end

/-! ## Items that are written again -/

theorem exists_bound_dropRebound {items : List Specifier} {s : Specifier} (h : s ∈ items) :
    ∃ t ∈ dropRebound items, t.bound = s.bound := by
  induction items using List.reverseRecOn with
  | nil => cases h
  | append_singleton items u ih =>
    rw [dropRebound_concat]
    rcases List.mem_append.1 h with h | h
    · obtain ⟨t, ht, hbound⟩ := ih h
      refine ⟨t, ?_, hbound⟩
      split
      · exact ht
      · exact List.mem_append_left _ ht
    · obtain rfl := List.mem_singleton.1 h
      split
      · next hany =>
        obtain ⟨t, ht, hbound⟩ := List.any_eq_true.1 hany
        exact ⟨t, ht, beq_iff_eq.1 hbound⟩
      · exact ⟨s, by simp, rfl⟩

/-- Of a list that is written anew all items stay, but for the one that is edited and those whose local
name another item has. -/
theorem mem_items_of_written {text source target : List Char} {named newName : Option (List Char)}
    {f : Found ImportDecl} {d : ImportDecl} {items : List Specifier}
    (h : .written f d items ∈ importChanges (imports text) source named target newName) {s : Specifier}
    (hs : s ∈ f.value.named.getD []) :
    s ∈ items ∨ given? named = some s.imported ∨ ∃ t ∈ items, t.bound = s.bound := by
  unfold importChanges at h
  cases hnamed : given? named with
  | none =>
    rw [hnamed] at h
    dsimp only [repointChanges] at h
    split at h
    · cases h
    · obtain ⟨g, -, heq⟩ := List.mem_map.1 h
      cases heq
      exact .inl hs
  | some old =>
    rw [hnamed] at h
    dsimp only at h
    unfold moveChanges at h
    rw [← findImported?_eq_findSome?] at h
    cases hfound : findImported? text source old with
    | none =>
      rw [hfound] at h
      cases h
    | some found =>
      obtain ⟨g, i, edited⟩ := found
      obtain ⟨-, -, hitem, hname⟩ := of_findImported? hfound
      rw [hfound] at h
      dsimp only at h
      obtain ⟨left, right, hitems, rfl⟩ := exists_split_of_getElem? hitem
      have hothers (hs : s ∈ g.value.named.getD []) : s ∈ left ∨ some old = some s.imported ∨ s ∈ right := by
        rw [hitems, List.mem_append, List.mem_cons] at hs
        rcases hs with hs | rfl | hs
        · exact .inl hs
        · exact .inr (.inl (congrArg some hname.symm))
        · exact .inr (.inr hs)
      split at h
      · split at h
        · cases h
        · cases List.mem_singleton.1 h
          rcases hothers hs with hs | hs | hs
          · exact .inr (.inr (exists_bound_dropRebound (by rw [hitems]; simp [hs])))
          · exact .inr (.inl hs)
          · exact .inr (.inr (exists_bound_dropRebound (by rw [hitems]; simp [hs])))
      · rcases List.mem_cons.1 h with h | h
        · unfold ImportChange.removal at h
          dsimp only at h
          split at h
          · cases h
          · cases h
            rw [eraseIdx_items hitems]
            rcases hothers hs with hs | hs | hs
            · exact .inl (List.mem_append_left _ hs)
            · exact .inr (.inl hs)
            · exact .inl (List.mem_append_right _ hs)
        · rcases additions_cases (of_findImported? hfound).1 _ _ with
            ⟨_, -, -, hadd⟩ | ⟨_, -, -, hadd⟩ | ⟨_, -, -, hadd⟩
          · rw [hadd] at h
            cases List.mem_singleton.1 h
          · rw [hadd] at h
            cases List.mem_singleton.1 h
            exact .inl (List.mem_append_left _ hs)
          · rw [hadd] at h
            cases List.mem_singleton.1 h

/-- An item that is read in one text stands at a place of another with the code that it had: a character is
code there exactly when it was code and no line comment begins in front of it in the item. -/
def KeepsCode (text edited : List Char) (item : Nat × List Char) (place : Nat) : Prop :=
  ∀ u c v, item.2 = u ++ c :: v → isBlank c = false →
    (¬ Covered edited (place + (collapsed u).length) ↔
      ¬ Covered text (item.1 + u.length) ∧ ¬ OpensLine u)

/-- When a brace list is written anew, each of its items stays but the edited one and those that are bound
already, and all code of the item stays code, except behind a line comment in the item: that takes in
what follows it there. -/
theorem editImport_keeps_items_live_iff {text source target : List Char} {named newName : Option (List Char)}
    {f : Found ImportDecl} {d : ImportDecl} {items : List Specifier} (hlines : WholeLines text)
    (htidy : ∀ c ∈ importChanges (imports text) source named target newName, c.Tidy text)
    (hwritten : .written f d items ∈ importChanges (imports text) source named target newName) :
    (∀ s ∈ f.value.named.getD [],
      s ∈ items ∨ given? named = some s.imported ∨ ∃ t ∈ items, t.bound = s.bound) ∧
    ∃ front opening gap closing after,
      editImport text source named target newName = front ++ (d.render items ++ after) ∧
      Written items (d.render items) opening gap closing ∧
      ∀ left s right, items = left ++ s :: right → ∀ x ∈ listedItems text f,
        Specifier.ofText? x.2 = some s →
          KeepsCode text (editImport text source named target newName) x
            (front ++ itemLead opening gap left).length := by
  obtain ⟨edits, hperm, hapart⟩ := exists_apart_importEdits text source named target newName
  have hreplaced : Replaced 0 edits text (editImport text source named target newName) := by
    rw [editImport_eq_splice]
    exact hapart.replaced_splice hperm
  refine ⟨fun s hs => mem_items_of_written hwritten hs, ?_⟩
  cases htidy _ hwritten with
  | written hlive hgone hlist htidyItems =>
    obtain ⟨hf, hd, hlisted, hbraces⟩ := (arises_importChanges hwritten).isRead htidyItems.module
    obtain ⟨opening, gap, closing, hitems, -⟩ := htidyItems.exists_written hd hlisted
    have hmem : ⟨f.start, f.stop, d.render items⟩ ∈ edits :=
      hperm.symm.subset (List.mem_filterMap.2 ⟨_, hwritten, rfl⟩)
    have hclear : ∀ e ∈ edits, e.start ≤ f.start → e.Clear text := by
      intro e he hstart
      obtain ⟨c, hc, hedit⟩ := List.mem_filterMap.1 (hperm.subset he)
      exact (htidy c hc).clear (arises_importChanges hc) hlines hedit hf hstart
    obtain ⟨front, after, hedited, hfront⟩ := hreplaced.exists_code (List.nil_append text).symm rfl
      readsOver_nil hmem hclear
    refine ⟨front, opening, gap, closing, after, hedited, hitems,
      fun left s right hsplit x hx hread u c v hu hc => ?_⟩
    have hne : x.2 ≠ [] := by simp [hu]
    have hb : f.value.braces ≠ [] := fun hnil => hne (snd_of_mem_listedItems hnil hx)
    have hpiece : x.2 ∈ pieces (· == ',') (unbraced d.braces) := by
      rw [hbraces hb]
      exact mem_pieces_of_listed hx
    obtain ⟨before, behind, htext, hlen, hbehind, hcode⟩ :=
      exists_place_of_listed hf (hlist hb) (hbraces hb ▸ htidyItems.list) hx hne
    have hall : editImport text source named target newName = (front ++ itemLead opening gap left) ++
        (s.render ++ (right.flatMap (fun t => (',' :: gap) ++ t.render) ++ (closing ++ after))) := by
      rw [hedited, hitems.split hsplit]
      simp only [List.append_assoc]
    have hplace := hfront.append (hitems.code left s right hsplit)
    have hchar := live_char_iff hcode (hplace _) hbehind (hitems.aloof left s right hsplit after)
      (htidyItems.list.unquoted hlisted hpiece) hread (htidyItems.whole _ hpiece s hread) hu hc
    rwa [← hall, ← htext, hlen] at hchar

/-- A name that stands on the line behind a line comment comes to stand in the comment. -/
theorem editImport_keeps_items_live_iff_sample :
    let text := "import \x7b\n  a, // note\n  b,\n\x7d from 'm';\n".toList
    let edited := editImport text "m".toList (some "a".toList) "m".toList (some "c".toList)
    ¬ Covered text 24 ∧ ∃ front rest, edited = front ++ ("// note b".toList ++ rest) ∧
      Covered edited (front.length + 8) := by
  intro text edited
  let a : Specifier := ⟨"a".toList, "a".toList, false⟩
  let b : Specifier := ⟨"// note b".toList, "// note b".toList, false⟩
  let c : Specifier := ⟨"c".toList, "c".toList, false⟩
  let braces := "\x7b\n  a, // note\n  b,\n\x7d".toList
  let d : ImportDecl := ⟨[], [], none, none, some [a, b], braces, "m".toList, '\'', true⟩
  let f : Found ImportDecl := ⟨0, 38, d⟩
  have hchanges : importChanges (imports text) "m".toList (some "a".toList) "m".toList (some "c".toList) =
      [.written f d [c, b]] := rfl
  have htidy : d.Tidy [c, b] := by
    refine ⟨by decide, by decide, by decide, by decide +kernel, by decide +kernel, fun s hs hnew => ?_⟩
    rcases List.mem_pair.1 hs with rfl | rfl
    · exact inactive_of_forall (by decide)
    · exact absurd (by simp [d]) hnew
  have hall : ∀ change ∈ importChanges (imports text) "m".toList (some "a".toList) "m".toList
      (some "c".toList), change.Tidy text := by
    rw [hchanges]
    exact List.forall_mem_singleton.2 (.written (by decide +kernel) (fun _ => rfl)
      (fun _ => by decide +kernel) htidy)
  have hlines : WholeLines text := by
    unfold WholeLines
    decide +kernel
  obtain ⟨-, front, opening, gap, closing, after, hedited, hwritten, hkept⟩ :=
    editImport_keeps_items_live_iff hlines hall (by rw [hchanges]; exact List.mem_singleton_self _)
  have hcode := hkept [c] b [] rfl (13, " // note\n  b".toList) (by decide +kernel) (by decide +kernel)
    " // note\n  ".toList 'b' [] rfl (by decide)
  refine ⟨by decide +kernel, front ++ itemLead opening gap [c], closing ++ after, ?_, ?_⟩
  · rw [hwritten.split (show [c, b] = [c] ++ b :: [] from rfl)] at hedited
    have hrender : b.render = "// note b".toList := rfl
    exact hedited.trans (by simp [hrender])
  · exact not_not.1 fun hlive => (hcode.1 hlive).2 ⟨" ".toList, " note\n  ".toList, rfl, rfl⟩

end Codemod.Source
