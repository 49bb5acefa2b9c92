import Codemod.Proofs.Source.ImportChange
import Codemod.Proofs.Source.LineStart

/-! Imports in literals and comments. An edit of imports looks at every declaration of the text, and its
choices fall on the first or the last that fits; they are the choices among the declarations that begin
in code exactly when none of them has fallen on another one. -/
namespace Codemod.Source
open Text

/-! ## Choices among some of the declarations -/

section

variable {p : Found ImportDecl → Bool} {all : List (Found ImportDecl)} {g : Found ImportDecl}

theorem find?_filter_of_find? {q : Found ImportDecl → Bool} (h : all.find? q = some g)
    (hp : p g = true) : (all.filter p).find? q = some g := by
  obtain ⟨hq, before, after, rfl, hbefore⟩ := List.find?_eq_some_iff_append.1 h
  rw [List.filter_append, List.filter_cons_of_pos hp]
  exact List.find?_eq_some_iff_append.2
    ⟨hq, _, _, rfl, fun f hf => hbefore f (List.mem_of_mem_filter hf)⟩

theorem find?_filter_of_none {q : Found ImportDecl → Bool} (h : all.find? q = none) :
    (all.filter p).find? q = none :=
  List.find?_eq_none.2 fun f hf => List.find?_eq_none.1 h f (List.mem_of_mem_filter hf)

theorem getLast?_filter_of_getLast? (h : all.getLast? = some g) (hp : p g = true) :
    (all.filter p).getLast? = some g := by
  obtain ⟨before, rfl⟩ := List.getLast?_eq_some_iff.1 h
  rw [List.filter_append, List.filter_cons_of_pos hp, List.filter_nil, List.getLast?_concat]

theorem additions_filter {module : List Char} {origin : Found ImportDecl} {moved : Specifier}
    (h : ∀ c ∈ additions all module origin moved, p c.place = true) (horigin : origin ∈ all) :
    additions (all.filter p) module origin moved = additions all module origin moved := by
  rcases additions_cases horigin module moved with
    ⟨g, hfind, -, hadd⟩ | ⟨g, hfind, -, hadd⟩ | ⟨last, hfind, hlast, hadd⟩
  · have hp : p g = true := h (.kept g) (by simp [hadd])
    unfold additions
    rw [hfind, find?_filter_of_find? hfind hp]
  · have hp : p g = true := h (.written g _ _) (by rw [hadd]; exact List.mem_singleton_self _)
    unfold additions
    rw [hfind, find?_filter_of_find? hfind hp]
  · have hp : p last = true := h (.added last _ _) (by rw [hadd]; exact List.mem_singleton_self _)
    unfold additions
    rw [hfind, find?_filter_of_none hfind, hlast, getLast?_filter_of_getLast? hlast hp]

theorem findSome?_itemFor?_filter {module name : List Char} {i : Nat} {s : Specifier}
    (h : all.findSome? (itemFor? module name) = some (g, i, s)) (hp : p g = true) :
    (all.filter p).findSome? (itemFor? module name) = some (g, i, s) := by
  obtain ⟨before, f, after, rfl, hread, hbefore⟩ := List.findSome?_eq_some_iff.1 h
  obtain rfl : g = f := fst_of_itemFor? hread
  rw [List.filter_append, List.filter_cons_of_pos hp]
  exact List.findSome?_eq_some_iff.2
    ⟨_, g, _, rfl, hread, fun f hf => hbefore f (List.mem_of_mem_filter hf)⟩

theorem moveChanges_filter {source old target new : List Char}
    (h : ∀ c ∈ moveChanges all source old target new, p c.place = true) :
    moveChanges (all.filter p) source old target new = moveChanges all source old target new := by
  cases hfound : all.findSome? (itemFor? source old) with
  | none =>
    have hnone : (all.filter p).findSome? (itemFor? source old) = none :=
      List.findSome?_eq_none_iff.2 fun f hf =>
        List.findSome?_eq_none_iff.1 hfound f (List.mem_of_mem_filter hf)
    unfold moveChanges
    rw [hfound, hnone]
  | some found =>
    obtain ⟨f, i, s⟩ := found
    have hf := (mem_of_findSome? hfound).1
    have hfilter : p f = true → (all.filter p).findSome? (itemFor? source old) = some (f, i, s) :=
      findSome?_itemFor?_filter hfound
    unfold moveChanges at h ⊢
    rw [hfound] at h ⊢
    dsimp only at h ⊢
    split at h
    · next hsame =>
      by_cases hold : new = old
      · -- Nothing is to be done, whichever declaration has the name.
        simp only [hsame, if_true, hold]
        split <;> rfl
      · rw [if_neg hold] at h
        have hp : p f = true := h _ (List.mem_singleton_self _)
        rw [hfilter hp]
        simp only [hsame, if_true]
    · have hp : p f = true := by
        have hplace := h _ (List.mem_cons_self ..)
        rwa [ImportChange.place_removal] at hplace
      rw [hfilter hp]
      dsimp only
      rw [additions_filter (fun c hc => h c (List.mem_cons_of_mem _ hc)) hf]

theorem repointChanges_filter {old new : List Char}
    (h : ∀ c ∈ repointChanges all old new, p c.place = true) :
    repointChanges (all.filter p) old new = repointChanges all old new := by
  unfold repointChanges at h ⊢
  split at h
  · next hsame => simp only [hsame, if_true]
  · next hother =>
    have hp : ∀ f ∈ all.filter (·.value.module == old), p f = true := fun f hf =>
      h _ (List.mem_map_of_mem hf)
    have hfilter : (all.filter p).filter (·.value.module == old) = all.filter (·.value.module == old) := by
      rw [List.filter_filter, List.filter_congr (fun f _ => Bool.and_comm _ _), ← List.filter_filter,
        List.filter_eq_self.2 hp]
    rw [if_neg hother, if_neg hother, hfilter]

/-- An edit that has only chosen declarations with a property has made the choices there are among
these, and conversely. -/
theorem importChanges_filter_iff {source target : List Char} {named newName : Option (List Char)} :
    (∀ c ∈ importChanges all source named target newName, p c.place = true) ↔
      importChanges all source named target newName =
        importChanges (all.filter p) source named target newName := by
  constructor
  · unfold importChanges
    dsimp only
    cases given? named with
    | none => exact fun h => (repointChanges_filter h).symm
    | some old => exact fun h => (moveChanges_filter h).symm
  · intro h c hc
    rw [h] at hc
    exact (List.mem_filter.1 (arises_importChanges hc).place_mem).2

end

/-! ## Choices in code -/

/-- The declarations that begin in code. -/
theorem liveFound_importDecl (text : List Char) : liveFound importDecl text =
    (imports text).filter fun f => !decide (Covered text f.start) := by
  refine List.filter_congr fun f hf => ?_
  have hstart : f.start < text.length := Nat.lt_of_lt_of_le (start_lt_stop hf).1 (start_lt_stop hf).2
  rw [Bool.eq_iff_iff]
  simpa using (not_covered_iff hstart).symm

/-! ## Where the moved name comes to stand -/

namespace ImportChange

/-- The declaration that a change writes, and its items. -/
def declares? : ImportChange → Option (ImportDecl × List Specifier)
  | written _ d items => some (d, items)
  | added _ d item => some (d, [item])
  | dropped _ => none
  | kept _ => none

/-- The text in front of what a change writes, up to the beginning of the line. -/
def front (text : List Char) : ImportChange → List Char
  | added last _ _ => text.take (lineEnd text last.stop) ++
      if (text.take (lineEnd text last.stop)).getLast? == some '\n' then [] else ['\n']
  | c => text.take c.place.start

/-- The edit puts the declaration behind that text. -/
theorem edit?_of_declares? {c : ImportChange} {d : ImportDecl} {items : List Specifier}
    (h : c.declares? = some (d, items)) (text : List Char) : ∃ e lead behind, c.edit? text = some e ∧
      e.text = lead ++ (d.render items ++ behind) ∧ c.front text = text.take e.start ++ lead := by
  cases c with
  | written f d' items' =>
    cases h
    exact ⟨_, [], [], rfl, by simp, by simp [front, place]⟩
  | added last d' item =>
    cases h
    exact ⟨_, _, ['\n'], rfl, List.append_assoc _ _ _, rfl⟩
  | dropped f => cases h
  | kept f => cases h

end ImportChange

section

variable {text edited lead declared behind : List Char} {e later : Edit} {edits : List Edit}

/-- Behind the first edit nothing but its own text stands. -/
theorem stands_first (h : Replaced 0 (e :: edits) text edited)
    (htext : e.text = lead ++ (declared ++ behind)) (hlined : Lined (text.take e.start ++ lead)) :
    ∃ front rest, edited = front ++ (declared ++ rest) ∧
      ∀ tail, framesAfter [] front tail = some [] ↔ EndsInCode (text.take e.start ++ lead) := by
  cases h with
  | @edit _ _ _ old new kept covered hstart hstop later =>
    refine ⟨kept ++ lead, behind ++ new, by simp [htext], fun tail => ?_⟩
    have htake : (kept ++ (covered ++ old)).take e.start = kept := by
      rw [hstart, Nat.zero_add, List.take_left]
    rw [htake] at hlined ⊢
    exact endsInCode_iff hlined tail

/-- Behind a later edit the text reads as it did, if the earlier one takes out and puts in what reads
over. -/
theorem stands_behind (h : Replaced 0 [e, later] text edited)
    (htext : later.text = lead ++ (declared ++ behind)) (hlines : WholeLines text)
    (hlined : Lined (text.take e.start)) (hcode : EndsInCode (text.take e.start))
    (hgone : ReadsOver ((text.drop e.start).take (e.stop - e.start))) (hput : ReadsOver e.text)
    (hfront : text.take later.start ++ lead <+: text ++ ['\n'])
    (hend : text.take later.start ++ lead = [] ∨ (text.take later.start ++ lead).getLast? = some '\n') :
    ∃ front rest, edited = front ++ (declared ++ rest) ∧
      ∀ tail, framesAfter [] front tail = some [] ↔ EndsInCode (text.take later.start ++ lead) := by
  cases h with
  | @edit _ _ _ old new kept covered hstart hstop hlater =>
    cases hlater with
    | @edit _ _ _ old new between covered' hstart' hstop' hrest =>
      rw [Nat.zero_add] at hstart
      have htake : (kept ++ (covered ++ (between ++ (covered' ++ old)))).take e.start = kept := by
        rw [hstart, List.take_left]
      have hcovered : ((kept ++ (covered ++ (between ++ (covered' ++ old)))).drop e.start).take
          (e.stop - e.start) = covered := by
        rw [hstart, List.drop_left, hstop, hstart, Nat.add_sub_cancel_left, List.take_left]
      have htake' : (kept ++ (covered ++ (between ++ (covered' ++ old)))).take later.start =
          kept ++ (covered ++ between) := by
        have hlen : later.start = (kept ++ (covered ++ between)).length := by
          rw [hstart', hstop, hstart]
          simp [Nat.add_assoc]
        have hall : kept ++ (covered ++ (between ++ (covered' ++ old))) =
            (kept ++ (covered ++ between)) ++ (covered' ++ old) := by simp
        rw [hlen, hall, List.take_left]
      rw [htake] at hlined hcode
      rw [hcovered] at hgone
      have hsplit : kept ++ (covered ++ between) ++ lead = (kept ++ covered) ++ (between ++ lead) := by
        simp
      rw [htake', hsplit] at hfront hend
      have hbetween : Lined (between ++ lead) := lined_of_isInfix hlines
        ((List.suffix_append _ _).isInfix.trans hfront.isInfix) (getLast?_behind hend)
      refine ⟨kept ++ (e.text ++ (between ++ lead)), behind ++ new, by simp [htext], fun tail => ?_⟩
      rw [htake', hsplit, List.append_assoc, endsInCode_behind_iff hlined hcode hput hbetween]
      exact (endsInCode_behind_iff hlined hcode hgone hbetween []).symm

end

section

variable {text : List Char} {f : Found ImportDecl}

/-- A line that lacks its end comes to have one. -/
theorem take_lineEnd_append {offset : Nat} (hoffset : offset ≤ text.length) {lead : List Char}
    (hlead : lead = if (text.take (lineEnd text offset)).getLast? == some '\n' then [] else ['\n']) :
    text.take (lineEnd text offset) ++ lead <+: text ++ ['\n'] ∧
      (text.take (lineEnd text offset) ++ lead).getLast? = some '\n' := by
  split at hlead
  · next hfeed =>
    rw [hlead, List.append_nil]
    exact ⟨(List.take_prefix _ _).trans (List.prefix_append _ _), beq_iff_eq.1 hfeed⟩
  · next hopen =>
    rcases lineEnd_cases hoffset with hend | ⟨front, rest, htext, hend⟩
    · rw [hlead, hend, List.take_length]
      exact ⟨List.prefix_refl _, List.getLast?_concat⟩
    · -- the line has its end
      have hsplit : text = (front ++ ['\n']) ++ rest := by simpa using htext
      rw [(take_and_drop_of_append hsplit (by simpa using hend)).1, List.getLast?_concat] at hopen
      exact absurd (by decide) hopen

theorem ImportChange.Arises.front_isPrefix {target new : List Char} {c : ImportChange}
    (hc : c.Arises (imports text) target new) : c.front text <+: text ++ ['\n'] ∧
      (c.front text = [] ∨ (c.front text).getLast? = some '\n') := by
  have hstart {f : Found ImportDecl} (hf : f ∈ imports text) : text.take f.start <+: text ++ ['\n'] ∧
      (text.take f.start = [] ∨ (text.take f.start).getLast? = some '\n') := by
    obtain ⟨p⟩ := nonempty_place hf
    exact ⟨(List.take_prefix _ _).trans (List.prefix_append _ _), p.take_start ▸ p.front_line⟩
  cases hc with
  | written hf => exact hstart hf
  | dropped hf => exact hstart hf
  | kept hg => exact hstart hg
  | added hlast hf hs =>
    obtain ⟨hfront, hend⟩ := take_lineEnd_append (start_lt_stop (List.mem_of_getLast? hlast)).2 rfl
    exact ⟨hfront, .inr hend⟩

theorem ImportChange.Arises.indent_space {target new : List Char} {c : ImportChange}
    (hc : c.Arises (imports text) target new) {d : ImportDecl} {items : List Specifier}
    (h : c.declares? = some (d, items)) : ∀ c ∈ d.indent, isSpaceOrTab c = true := by
  cases hc with
  | written hf hd =>
    cases h
    obtain ⟨p⟩ := nonempty_place hf
    have hindent := p.renderable.1.indent
    rcases hd with rfl | rfl | rfl <;> exact hindent
  | dropped hf => cases h
  | kept hg => cases h
  | added hlast hf hs =>
    cases h
    exact nofun

/-- A declaration begins in code exactly when nothing is open in front of it. -/
theorem not_covered_declaration_iff {indent : List Char}
    (hindent : ∀ c ∈ indent, isSpaceOrTab c = true) (front rest : List Char) :
    ¬ Covered (front ++ (indent ++ ("import".toList ++ rest))) front.length ↔
      framesAfter [] front (indent ++ ("import".toList ++ rest)) = some [] := by
  cases indent with
  | nil => exact not_covered_iff_framesAfter (by decide) rfl
  | cons c indent =>
    have hc := hindent c (List.mem_cons_self ..)
    simp only [isSpaceOrTab, Bool.or_eq_true, beq_iff_eq] at hc
    rcases hc with rfl | rfl
    · exact not_covered_iff_framesAfter (by decide) rfl
    · exact not_covered_iff_framesAfter (by decide) rfl

theorem not_covered_start_iff (hf : f ∈ imports text) (hlined : Lined (text.take f.start)) :
    ¬ Covered text f.start ↔ EndsInCode (text.take f.start) := by
  obtain ⟨p⟩ := nonempty_place hf
  obtain ⟨s, tail, hshape⟩ := exists_shape_of_importDecl p.read
  have htext : text = p.front ++ (s.indent ++ ("import".toList ++
      s.blank :: (s.clause ++ moduleText s.gap s.quote s.module tail))) := by
    conv_lhs => rw [p.text_eq, hshape]
    rfl
  have hiff := not_covered_declaration_iff s.indent_space p.front
    (s.blank :: (s.clause ++ moduleText s.gap s.quote s.module tail))
  rw [p.take_start] at hlined ⊢
  rw [p.start_eq, ← endsInCode_iff hlined, ← hiff, ← htext]

theorem not_covered_render_iff {d : ImportDecl} (hindent : ∀ c ∈ d.indent, isSpaceOrTab c = true)
    (items : List Specifier) (front rest : List Char) :
    ¬ Covered (front ++ (d.render items ++ rest)) front.length ↔
      framesAfter [] front (d.render items ++ rest) = some [] := by
  have hrender : d.render items = d.indent ++ ("import".toList ++ (" ".toList ++ (d.typeWord ++
      (joinWith ", ".toList (d.clauseItems items) ++ (" from ".toList ++
        d.quote :: (d.module ++ d.quote :: if d.semicolon then [';'] else [])))))) := by
    simp [ImportDecl.render, ImportDecl.clauseItems]
  rw [hrender, List.append_assoc, List.append_assoc]
  exact not_covered_declaration_iff hindent front _

end

section

variable {text : List Char} {f : Found ImportDecl} {s : Specifier} {target new : List Char} {i : Nat}

/-- The declaration that a moved name comes into is written before or behind the removal. -/
theorem replaced_additions (hf : f ∈ imports text) {c : ImportChange}
    (hc : c ∈ additions (imports text) target f (s.renamed new)) {e : Edit}
    (he : c.edit? text = some e) :
    Replaced 0 [withoutItem text f i, e] text
        (splice text (withoutItem text f i :: addItem text target f (s.renamed new))) ∨
      Replaced 0 [e, withoutItem text f i] text
        (splice text (withoutItem text f i :: addItem text target f (s.renamed new))) := by
  rw [← filterMap_edit?_additions hf]
  rcases additions_cases hf target (s.renamed new) with
    ⟨g, hg, -, hadd⟩ | ⟨g, hg, -, hadd⟩ | ⟨last, -, hlast, hadd⟩
  · obtain rfl := List.mem_singleton.1 (hadd ▸ hc)
    cases he
  · obtain rfl := List.mem_singleton.1 (hadd ▸ hc)
    cases he
    obtain ⟨hg, -, hne⟩ := start_ne_of_takes hg
    rw [hadd]
    rcases apart_removal_written hf hg hne i
      (g.value.withBraces.render (g.value.named.getD [] ++ [s.renamed new])) with hapart | hapart
    · exact .inl (hapart.replaced_splice (List.Perm.refl _))
    · exact .inr (hapart.replaced_splice (List.Perm.swap _ _ _))
  · obtain rfl := List.mem_singleton.1 (hadd ▸ hc)
    cases he
    rw [hadd]
    exact .inl ((apart_removal_added hf hlast i _).replaced_splice (List.Perm.refl _))

/-- The edit takes out what begins in code, and reading over what it takes out or puts in leads to code
again. -/
structure Edit.Unobtrusive (text : List Char) (e : Edit) : Prop where
  live : ¬ Covered text e.start
  gone : ReadsOver ((text.drop e.start).take (e.stop - e.start))
  put : ReadsOver e.text

/-- A moved name comes to stand in code exactly when the place for it is in code. -/
theorem moved_stands_in_code (hf : f ∈ imports text) (hs : s ∈ f.value.named.getD [])
    (hlines : WholeLines text) (hremoval : (withoutItem text f i).Unobtrusive text) {c : ImportChange}
    (hc : c ∈ additions (imports text) target f (s.renamed new)) {d : ImportDecl}
    {items : List Specifier} (hd : c.declares? = some (d, items)) :
    ∃ front rest, splice text (withoutItem text f i :: addItem text target f (s.renamed new)) =
        front ++ (d.render items ++ rest) ∧
      (¬ Covered (front ++ (d.render items ++ rest)) front.length ↔ EndsInCode (c.front text)) := by
  have harises := arises_additions hf hs hc
  obtain ⟨hfront, hend⟩ := harises.front_isPrefix
  obtain ⟨hfrontOf, hendOf⟩ := (ImportChange.Arises.kept hf : ImportChange.Arises (imports text) target
    new (.kept f)).front_isPrefix
  have hstart := start_withoutItem text f i
  have hlined : Lined (text.take (withoutItem text f i).start) := by
    rw [hstart]
    exact lined_of_isInfix hlines hfrontOf.isInfix hendOf
  have hcode : EndsInCode (text.take (withoutItem text f i).start) := by
    have hlive := hremoval.live
    rw [hstart] at hlined hlive ⊢
    exact (not_covered_start_iff hf hlined).1 hlive
  obtain ⟨e, lead, behind, hedit, htext, hbefore⟩ := ImportChange.edit?_of_declares? hd text
  have hstands : ∃ front rest, splice text (withoutItem text f i ::
      addItem text target f (s.renamed new)) = front ++ (d.render items ++ rest) ∧
      ∀ tail, framesAfter [] front tail = some [] ↔ EndsInCode (text.take e.start ++ lead) := by
    rw [hbefore] at hfront hend
    rcases replaced_additions (i := i) hf hc hedit with hreplaced | hreplaced
    · exact stands_behind hreplaced htext hlines hlined hcode hremoval.gone hremoval.put hfront hend
    · exact stands_first hreplaced htext (lined_of_isInfix hlines hfront.isInfix hend)
  obtain ⟨front, rest, heq, hiff⟩ := hstands
  exact ⟨front, rest, heq, (not_covered_render_iff (harises.indent_space hd) items front rest).trans
    (hbefore ▸ hiff _)⟩

theorem module_of_declares?_removal {d : ImportDecl} {items : List Specifier}
    (h : (ImportChange.removal f i).declares? = some (d, items)) : d.module = f.value.module := by
  unfold ImportChange.removal at h
  dsimp only at h
  split at h
  · cases h
  · cases h
    rfl

theorem mem_of_declares?_additions (hf : f ∈ imports text) {moved : Specifier} {c : ImportChange}
    (hc : c ∈ additions (imports text) target f moved) {d : ImportDecl} {items : List Specifier}
    (hd : c.declares? = some (d, items)) : moved ∈ items := by
  rcases additions_cases hf target moved with
    ⟨g, -, -, hadd⟩ | ⟨g, -, -, hadd⟩ | ⟨last, -, -, hadd⟩
  · obtain rfl := List.mem_singleton.1 (hadd ▸ hc)
    cases hd
  · obtain rfl := List.mem_singleton.1 (hadd ▸ hc)
    cases hd
    simp
  · obtain rfl := List.mem_singleton.1 (hadd ▸ hc)
    cases hd
    simp

end

/-- An edit of imports carries out its changes. It edits, chooses and inserts at imports in code alone
exactly when these are the changes that it would make if the imports in literals and comments were not
there. A name that moves comes to stand in code exactly when nothing is open in front of the place that
is chosen for it. -/
theorem editImport_works_on_code_iff (text source : List Char) (named : Option (List Char))
    (target : List Char) (newName : Option (List Char)) :
    editImport text source named target newName =
        splice text ((importChanges (imports text) source named target newName).filterMap
          (·.edit? text)) ∧
      ((∀ c ∈ importChanges (imports text) source named target newName,
          ¬ Covered text c.place.start) ↔
        importChanges (imports text) source named target newName =
          importChanges (liveFound importDecl text) source named target newName) ∧
      ∀ old ∈ given? named, ∀ f i s, findImported? text source old = some (f, i, s) →
        (given? (some target)).getD source ≠ source → WholeLines text →
        (withoutItem text f i).Unobtrusive text →
        ∀ c ∈ importChanges (imports text) source named target newName, ∀ d items,
          c.declares? = some (d, items) → d.module = (given? (some target)).getD source →
          s.renamed ((given? newName).getD old) ∈ items ∧
            ∃ front rest, editImport text source named target newName =
                front ++ (d.render items ++ rest) ∧
              (¬ Covered (editImport text source named target newName) front.length ↔
                EndsInCode (c.front text)) := by
  refine ⟨editImport_eq_splice text source named target newName, ?_, ?_⟩
  · rw [liveFound_importDecl, ← importChanges_filter_iff]
    simp
  · intro old hold f i s hfound hother hlines hremoval c hc d items hd hmodule
    obtain ⟨hf, rfl, hitem, -⟩ := of_findImported? hfound
    have hedited : editImport text f.value.module named target newName = splice text
        (withoutItem text f i :: addItem text ((given? (some target)).getD f.value.module) f
          (s.renamed ((given? newName).getD old))) := by
      unfold editImport
      rw [Option.mem_def.1 hold]
      dsimp only
      rw [moveImport_eq hfound, if_neg hother]
    have hchanges : importChanges (imports text) f.value.module named target newName =
        .removal f i :: additions (imports text) ((given? (some target)).getD f.value.module) f
          (s.renamed ((given? newName).getD old)) := by
      rw [findImported?_eq_findSome?] at hfound
      unfold importChanges moveChanges
      rw [Option.mem_def.1 hold]
      dsimp only
      rw [hfound]
      exact if_neg hother
    rw [hchanges] at hc
    rcases List.mem_cons.1 hc with rfl | hc
    · exact absurd ((module_of_declares?_removal hd).symm.trans hmodule).symm hother
    · obtain ⟨front, rest, heq, hiff⟩ :=
        moved_stands_in_code hf (List.mem_of_getElem? hitem) hlines hremoval hc hd
      rw [hedited]
      exact ⟨mem_of_declares?_additions hf hc hd, front, rest, heq, heq ▸ hiff⟩

/-- A comment that begins behind the last import takes in the line that is added. -/
theorem editImport_works_on_code_iff_sample :
    let text := "import \x7b a, c \x7d from 'm'; /* note\n*/\n".toList
    let edited := editImport text "m".toList (some "a".toList) "n".toList none
    ∃ front rest, edited = front ++ ("import \x7b a \x7d from 'n';".toList ++ rest) ∧
      Covered edited front.length := by
  intro text edited
  let a : Specifier := ⟨"a".toList, "a".toList, false⟩
  let c : Specifier := ⟨"c".toList, "c".toList, false⟩
  let f : Found ImportDecl := ⟨0, 25, ⟨[], [], none, none, some [a, c], "\x7b a, c \x7d".toList,
    "m".toList, '\'', true⟩⟩
  have hfound : findImported? text "m".toList "a".toList = some (f, 0, a) := rfl
  have hchange : .added f (newLine "n".toList '\'' true) a ∈
      importChanges (imports text) "m".toList (some "a".toList) "n".toList none :=
    List.mem_cons_of_mem _ (List.mem_singleton_self _)
  have hremoval : (withoutItem text f 0).Unobtrusive text :=
    ⟨by decide +kernel, fun _ => rfl, fun _ => rfl⟩
  obtain ⟨-, -, hmoved⟩ := editImport_works_on_code_iff text "m".toList (some "a".toList) "n".toList none
  obtain ⟨-, front, rest, hedited, hcovered⟩ := hmoved "a".toList rfl f 0 a hfound (by decide)
    (by unfold WholeLines; decide +kernel) hremoval _ hchange _ _ rfl rfl
  refine ⟨front, rest, hedited, ?_⟩
  by_contra hlive
  exact absurd (hcovered.1 hlive) (by decide +kernel)

end Codemod.Source
