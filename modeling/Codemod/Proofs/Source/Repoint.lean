import Codemod.Proofs.Source.ImportChange

/-! Pointing declarations at another module. All of them are written anew at once; carried out from the
last one to the first, each edit leaves what stands in front of it. -/
namespace Codemod.Source
open Text

/-- The first of some edits can be carried out after the others. -/
theorem splice_cons {text : List Char} {e : Edit} {edits : List Edit} (h : Apart text (e :: edits)) :
    splice text (e :: edits) = splice (splice text edits) [e] := by
  obtain ⟨hfirst, hedits⟩ := List.pairwise_cons.1 h.pairwise
  obtain ⟨hcovers, hlen⟩ := h.inside e (by simp)
  have hbehind : ∀ e' ∈ edits, 0 + (text.take e.stop).length ≤ e'.start ∧ e'.start ≤ e'.stop := by
    intro e' he'
    have hlater := hfirst e' he'
    have hinside := h.inside e' (by simp [he'])
    rw [List.length_take]
    omega
  have hothers : splice text edits = text.take e.stop ++ spliceFrom e.stop (text.drop e.stop) edits := by
    have hkept := spliceFrom_append (text.take e.stop) hbehind (text.drop e.stop)
    rw [List.take_append_drop, Nat.zero_add, List.length_take, Nat.min_eq_left hlen] at hkept
    rw [splice_of_perm (List.Perm.refl edits) (hedits.imp And.left), hkept]
  have hall : splice text (e :: edits) =
      text.take e.start ++ (e.text ++ spliceFrom e.stop (text.drop e.stop) edits) := by
    rw [splice_of_perm (List.Perm.refl _) (h.pairwise.imp And.left), spliceFrom, if_neg (by omega),
      Nat.sub_zero, Nat.sub_zero, List.append_assoc]
  have hlength : (text.take e.stop).length = e.stop := by rw [List.length_take, Nat.min_eq_left hlen]
  have htake : (text.take e.stop ++ spliceFrom e.stop (text.drop e.stop) edits).take e.start =
      text.take e.start := by
    rw [List.take_append_of_le_length (by omega), List.take_take, Nat.min_eq_left hcovers]
  rw [hall, hothers, splice_singleton, htake, List.drop_left' hlength, List.append_assoc]

/-- An imported name, as it is when its module has moved. -/
def repointed (old new : List Char) (x : List Char × Specifier) : List Char × Specifier :=
  if x.1 = old then (new, x.2) else x

theorem map_repointed_bindingsOf (old new : List Char) (d : ImportDecl) :
    ((d.named.getD []).map fun t => (d.module, t)).map (repointed old new) =
      (d.named.getD []).map fun t => (if d.module = old then new else d.module, t) := by
  rw [List.map_map]
  refine List.map_congr_left fun t ht => ?_
  simp only [Function.comp_apply, repointed]
  split <;> rfl

section

variable {text : List Char} {before fs : List (Found ImportDecl)} {old new : List Char}

/-- What stands in front stays, and behind it the names keep their order. -/
theorem imports_repoint (hnames : ∀ x ∈ bindings text, x.2.Braceless) (hnew : IsModule new)
    (h : imports text = before ++ fs) (old : List Char) :
    ∃ found, imports (splice text ((fs.filter (·.value.module == old)).map (repoint new))) =
        before ++ found ∧
      bindingsOf (found.map (·.value)) = (bindingsOf (fs.map (·.value))).map (repointed old new) := by
  induction fs generalizing before with
  | nil => exact ⟨[], by simpa [splice_nil] using h, rfl⟩
  | cons f fs ih =>
    have happart := apart_repoint h old new
    have h' : imports text = (before ++ [f]) ++ fs := by simpa using h
    obtain ⟨found, heq, hfound⟩ := ih h'
    rw [List.append_assoc, List.singleton_append] at heq
    have hrepointed := map_repointed_bindingsOf old new f.value
    rw [List.map_cons, bindingsOf_cons, List.map_append, hrepointed]
    by_cases hmodule : f.value.module = old
    · rw [List.filter_cons_of_pos (by simpa using hmodule), List.map_cons] at happart ⊢
      rw [splice_cons happart]
      have hf : f ∈ imports (splice text ((fs.filter (·.value.module == old)).map (repoint new))) := by
        simp [heq]
      obtain ⟨p⟩ := nonempty_place hf
      have hd' : { f.value with module := new }.IsRead := p.isRead.withModule hnew
      obtain ⟨d, found', heq', hfound', hread⟩ := p.imports_replaced heq hd'
        (legible_of_mem hnames (h ▸ by simp : f ∈ imports text)) p.renderable.2
      refine ⟨found', heq', ?_⟩
      rw [hfound', bindingsOf_cons, hread.named, hread.module, hfound, if_pos hmodule]
    · rw [List.filter_cons_of_neg (by simpa using hmodule)]
      refine ⟨f :: found, heq, ?_⟩
      rw [List.map_cons, bindingsOf_cons, hfound, if_neg hmodule]

/-- Repointing keeps the imported names, with the module that each is imported from now. -/
theorem bindings_repointImports (hnames : ∀ x ∈ bindings text, x.2.Braceless) (hnew : IsModule new)
    (hold : old ≠ []) :
    bindings (repointImports text old new) = (bindings text).map (repointed old new) := by
  unfold repointImports
  split
  · next hsame =>
    obtain rfl : old = new := by simpa [hold] using hsame
    have hself : ∀ x ∈ bindings text, repointed old old x = x := by
      intro x hx
      unfold repointed
      split
      · next hmodule => rw [← hmodule]
      · rfl
    rw [List.map_congr_left hself, List.map_id']
  · obtain ⟨found, heq, hfound⟩ :=
      imports_repoint hnames hnew (List.nil_append (imports text)).symm old
    rw [List.nil_append] at heq
    unfold repoint at heq
    rw [bindings, declarations, heq, hfound]
    rfl

end

end Codemod.Source
