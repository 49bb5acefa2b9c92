import Codemod.Proofs.Source.ImportChange

/-! What an edit of imports leaves as it is. All characters outside the declarations that are written
anew stay in their order, and a declaration that goes takes the rest of its line with it. -/
namespace Codemod.Source
open Text

/-- What stands from an offset on up to the end of its line, which is included. -/
def restOfLine (text : List Char) (offset : Nat) : List Char :=
  (text.drop offset).take (lineEnd text offset - offset)

/-- Nothing or the end of one line. -/
def IsLineEnd (cs : List Char) : Prop := cs ∈ ["", "\n", "\r\n", "\r"].map String.toList

instance (cs : List Char) : Decidable (IsLineEnd cs) :=
  inferInstanceAs (Decidable (cs ∈ ["", "\n", "\r\n", "\r"].map String.toList))

/-- An edit that touches nothing but import declarations. -/
inductive Edit.OnImports (text : List Char) : Edit → Prop
  | replaces {f : Found ImportDecl} (hf : f ∈ imports text) (d : ImportDecl) (items : List Specifier) :
      OnImports text ⟨f.start, f.stop, d.render items⟩
  | deletes {f : Found ImportDecl} (hf : f ∈ imports text) {ends rest : List Char}
      (hends : IsLineEnd ends) (hrest : text.drop f.stop = ends ++ rest) :
      OnImports text ⟨f.start, f.stop + ends.length, []⟩
  | adds {last : Found ImportDecl} (hlast : (imports text).getLast? = some last) (d : ImportDecl)
      (item : Specifier) : OnImports text (lineEdit text last.stop (d.render [item]))

variable {text : List Char} {f g : Found ImportDecl}

/-- No two declarations begin at one offset. -/
theorem eq_of_start_eq (hf : f ∈ imports text) (hg : g ∈ imports text) (h : f.start = g.start) :
    f = g := by
  have hsorted : (imports text).Pairwise fun f g => f.start < g.start :=
    pairwise_foundFrom importDecl 0 0 none text
  have hstarts : ((imports text).map Found.start).Nodup :=
    List.pairwise_map.2 (hsorted.imp fun h => Nat.ne_of_lt h)
  exact List.inj_on_of_nodup_map hstarts hf hg h

theorem drop_eq_restOfLine_append (h : f ∈ imports text) :
    text.drop f.stop = restOfLine text f.stop ++ text.drop (lineEnd text f.stop) ∧
      f.stop + (restOfLine text f.stop).length = lineEnd text f.stop := by
  have hlen := (start_lt_stop h).2
  obtain ⟨hle, hend⟩ := le_lineEnd hlen
  have hdrop : text.drop (lineEnd text f.stop) =
      (text.drop f.stop).drop (lineEnd text f.stop - f.stop) := by
    rw [List.drop_drop]
    congr 1
    omega
  refine ⟨by rw [restOfLine, hdrop, List.take_append_drop], ?_⟩
  rw [restOfLine, List.length_take, List.length_drop]
  omega

/-- A declaration that goes with its line leaves the text outside alone exactly when nothing else
stands there. -/
theorem onImports_line_iff (hf : f ∈ imports text) :
    Edit.OnImports text ⟨f.start, lineEnd text f.stop, []⟩ ↔ IsLineEnd (restOfLine text f.stop) := by
  obtain ⟨hrest, hlen⟩ := drop_eq_restOfLine_append hf
  constructor
  · intro h
    generalize he : (⟨f.start, lineEnd text f.stop, []⟩ : Edit) = e at h
    cases h with
    | replaces hg d items =>
      obtain ⟨hstart, hstop, -⟩ := Edit.mk.inj he
      obtain rfl := eq_of_start_eq hf hg hstart
      have hnil : restOfLine text f.stop = [] := List.eq_nil_of_length_eq_zero (by omega)
      rw [hnil]
      decide
    | deletes hg hends hdrop =>
      obtain ⟨hstart, hstop, -⟩ := Edit.mk.inj he
      obtain rfl := eq_of_start_eq hf hg hstart
      rwa [(List.append_inj (hrest.symm.trans hdrop) (by omega)).1]
    | adds hlast d item =>
      have htext := (Edit.mk.inj he).2.2
      simp at htext
  · intro h
    rw [← hlen]
    exact .deletes hf h hrest

/-- An edit that inserts: there is nothing that it replaces. -/
def Edit.inserts (e : Edit) : Bool := e.start == e.stop

theorem inserts_withoutItem (hf : f ∈ imports text) (i : Nat) :
    (withoutItem text f i).inserts = false := by
  obtain ⟨p⟩ := nonempty_place hf
  have hstart := p.start_lt_stop
  have hstop := (p.stop_withoutItem i).1
  simp only [Edit.inserts, beq_eq_false_iff_ne, start_withoutItem]
  omega

theorem countP_inserts_repointChanges (text old new : List Char) :
    ((repointChanges (imports text) old new).filterMap (·.edit? text)).countP Edit.inserts = 0 := by
  rw [List.countP_eq_zero]
  intro e he
  obtain ⟨c, hc, hedit⟩ := List.mem_filterMap.1 he
  unfold repointChanges at hc
  split at hc
  · cases hc
  · obtain ⟨f, hf, rfl⟩ := List.mem_map.1 hc
    have hstart := (start_lt_stop (List.mem_of_mem_filter hf)).1
    cases hedit
    simp only [Edit.inserts, beq_iff_eq]
    omega

theorem countP_inserts_moveChanges (text source old target new : List Char) :
    ((moveChanges (imports text) source old target new).filterMap (·.edit? text)).countP
      Edit.inserts ≤ 1 := by
  unfold moveChanges
  cases hfound : (imports text).findSome? (itemFor? source old) with
  | none => exact Nat.zero_le 1
  | some found =>
    obtain ⟨f, i, s⟩ := found
    have hf := (mem_of_findSome? hfound).1
    dsimp only
    split
    · split
      · exact Nat.zero_le 1
      · exact List.countP_le_length
    · rw [List.filterMap_cons_some (ImportChange.edit?_removal text f i),
        List.countP_cons_of_neg (by simp [inserts_withoutItem hf])]
      refine Nat.le_trans List.countP_le_length (Nat.le_trans (List.length_filterMap_le _ _) ?_)
      rcases additions_cases hf target (s.renamed new) with
        ⟨g, -, -, hadd⟩ | ⟨g, -, -, hadd⟩ | ⟨last, -, -, hadd⟩ <;> rw [hadd] <;> exact Nat.le_refl 1

/-- At most one line is added. -/
theorem countP_inserts_importEdits (text source : List Char) (named : Option (List Char))
    (target : List Char) (newName : Option (List Char)) :
    (importEdits text source named target newName).countP Edit.inserts ≤ 1 := by
  unfold importEdits importChanges
  cases given? named with
  | none => exact (countP_inserts_repointChanges _ _ _).trans_le (Nat.zero_le 1)
  | some old => exact countP_inserts_moveChanges _ _ _ _ _

/-- Each edit touches import declarations only or deletes one with the rest of its line. -/
theorem ImportChange.Arises.onImports_or {c : ImportChange} {target new : List Char}
    (h : c.Arises (imports text) target new) {e : Edit} (he : c.edit? text = some e) :
    e.OnImports text ∨ ∃ f ∈ imports text, c = .dropped f ∧ e = ⟨f.start, lineEnd text f.stop, []⟩ := by
  cases h with
  | @written f hf d hd items hitems =>
    cases he
    exact .inl (.replaces hf d items)
  | @dropped f hf =>
    cases he
    exact .inr ⟨f, hf, rfl, rfl⟩
  | kept hg => cases he
  | added hlast hf hs =>
    cases he
    exact .inl (.adds hlast _ _)

/-- An edit of imports replaces ranges that lie apart and keeps all that stands outside them. A range is
one declaration, or the place behind the line of the last one, where at most one line is added, or a
declaration that goes, with the rest of its line; so nothing but declarations is touched exactly when on
the line of a declaration that goes nothing else stands. -/
theorem editImport_keeps_outside (text source : List Char) (named : Option (List Char))
    (target : List Char) (newName : Option (List Char)) :
    ∃ edits, edits.Perm (importEdits text source named target newName) ∧
      Replaced 0 edits text (editImport text source named target newName) ∧
      edits.countP Edit.inserts ≤ 1 ∧
      (∀ e ∈ edits, e.OnImports text ∨ ∃ f ∈ imports text, e = ⟨f.start, lineEnd text f.stop, []⟩) ∧
      ((∀ e ∈ edits, e.OnImports text) ↔
        ∀ f, .dropped f ∈ importChanges (imports text) source named target newName →
          IsLineEnd (restOfLine text f.stop)) := by
  obtain ⟨edits, hperm, hapart⟩ := exists_apart_importEdits text source named target newName
  have hcases : ∀ e ∈ edits, e.OnImports text ∨ ∃ f ∈ imports text,
      .dropped f ∈ importChanges (imports text) source named target newName ∧
        e = ⟨f.start, lineEnd text f.stop, []⟩ := by
    intro e he
    obtain ⟨c, hc, hedit⟩ := List.mem_filterMap.1 (hperm.subset he)
    refine ((arises_importChanges hc).onImports_or hedit).imp_right ?_
    rintro ⟨f, hf, rfl, rfl⟩
    exact ⟨f, hf, hc, rfl⟩
  refine ⟨edits, hperm, ?_, ?_, fun e he => ?_, fun h f hdropped => ?_, fun h e he => ?_⟩
  · rw [editImport_eq_splice]
    exact hapart.replaced_splice hperm
  · rw [hperm.countP_eq]
    exact countP_inserts_importEdits text source named target newName
  · refine (hcases e he).imp_right ?_
    rintro ⟨f, hf, -, rfl⟩
    exact ⟨f, hf, rfl⟩
  · have hf := (arises_importChanges hdropped).place_mem
    refine (onImports_line_iff hf).1 (h _ (hperm.symm.subset ?_))
    exact List.mem_filterMap.2 ⟨_, hdropped, rfl⟩
  · rcases hcases e he with honly | ⟨f, hf, hdropped, rfl⟩
    · exact honly
    · exact (onImports_line_iff hf).2 (h f hdropped)

/-- A statement on the line of the declaration goes with it. -/
example : editImport "import \x7b a \x7d from 'm'; run();\n".toList "m".toList (some "a".toList) "n".toList
    none = "import \x7b a \x7d from 'n';\n".toList := by cbv

end Codemod.Source
