import Codemod.Proofs.Source.Repoint

/-! Local names under an edit of imports. The name that is moved can come by a local name that another
imported name has. The edit compares local names within one list only, and drops whichever comes later;
what it keeps of the others, and whether two are left with one local name, depends on where the other
one stands. -/
namespace Codemod.Source
open Text

/-- An imported name as a reader sees it: its module, its name there, and its name here. -/
def bindingTriple (x : List Char × Specifier) : List Char × List Char × List Char :=
  (x.1, x.2.imported, x.2.bound)

/-- No local name stands for two imported names, and all but the edited ones are there as before. -/
structure KeepsOthers (edited : List Char × Specifier → Prop) (old new : List (List Char × Specifier)) :
    Prop where
  distinct : (new.map (·.2.bound)).Nodup
  others : ∀ x ∈ old, ¬ edited x → bindingTriple x ∈ new.map bindingTriple

/-! ## What can become of the others -/

section

variable {x y z : List Char × Specifier} {old new others : List (List Char × Specifier)}

theorem nodup_bounds_of_perm (h : old.Perm new) (hdistinct : (old.map (·.2.bound)).Nodup) :
    (new.map (·.2.bound)).Nodup :=
  (h.map _).nodup_iff.1 hdistinct

theorem ne_of_nodup_bounds (hdistinct : ((x :: others).map (·.2.bound)).Nodup) (hz : z ∈ others) :
    z.2.bound ≠ x.2.bound := by
  rw [List.map_cons, List.nodup_cons] at hdistinct
  exact fun heq => hdistinct.1 (List.mem_map.2 ⟨z, hz, heq⟩)

theorem Exchanged.perm (h : Exchanged x y old new) :
    ∃ others, old.Perm (x :: others) ∧ new.Perm (y :: others) := by
  obtain ⟨l₁, l₂, k₁, k₂, rfl, rfl, heq⟩ := h
  exact ⟨l₁ ++ l₂, List.perm_middle, heq ▸ List.perm_middle⟩

/-- The name is taken out. -/
theorem keepsOthers_of_removed (hdistinct : (old.map (·.2.bound)).Nodup) (hold : old.Perm (x :: others))
    (hnew : new.Perm others) : KeepsOthers (· = x) old new := by
  have hnodup := nodup_bounds_of_perm hold hdistinct
  refine ⟨nodup_bounds_of_perm hnew.symm (List.nodup_cons.1 hnodup).2, fun z hz hne => ?_⟩
  rcases List.mem_cons.1 (hold.subset hz) with rfl | hz
  · exact absurd rfl hne
  · exact List.mem_map_of_mem (hnew.symm.subset hz)

/-- The name is exchanged for another one. -/
theorem keepsOthers_iff_of_exchanged (hdistinct : (old.map (·.2.bound)).Nodup)
    (h : Exchanged x y old new) :
    KeepsOthers (· = x) old new ↔ ∀ z ∈ old, z ≠ x → z.2.bound ≠ y.2.bound := by
  obtain ⟨others, hold, hnew⟩ := h.perm
  have hnodup := nodup_bounds_of_perm hold hdistinct
  constructor
  · intro h z hz hne
    exact ne_of_nodup_bounds (nodup_bounds_of_perm hnew h.distinct)
      ((List.mem_cons.1 (hold.subset hz)).resolve_left hne)
  · intro h
    have hfresh : y.2.bound ∉ others.map (·.2.bound) := by
      intro hm
      obtain ⟨z, hz, heq⟩ := List.mem_map.1 hm
      have hne : z ≠ x := fun heq => ne_of_nodup_bounds hnodup hz (heq ▸ rfl)
      exact h z (hold.symm.subset (List.mem_cons_of_mem _ hz)) hne heq
    refine ⟨nodup_bounds_of_perm hnew.symm (List.nodup_cons.2 ⟨hfresh, (List.nodup_cons.1 hnodup).2⟩),
      fun z hz hne => ?_⟩
    have hin := (List.mem_cons.1 (hold.subset hz)).resolve_left hne
    exact List.mem_map_of_mem (hnew.symm.subset (List.mem_cons_of_mem _ hin))

/-- A clash that is allowed for what never clashes is none. -/
theorem forall_bound_ne_iff {bound : List Char} {P : List Char × Specifier → Prop}
    (hP : ∀ z ∈ old, P z → z.2.bound ≠ bound) :
    (∀ z ∈ old, z ≠ x → z.2.bound ≠ bound) ↔ ∀ z ∈ old, z ≠ x → z.2.bound = bound → P z := by
  constructor
  · exact fun h z hz hne heq => absurd heq (h z hz hne)
  · exact fun h z hz hne heq => hP z hz (h z hz hne heq) heq

/-- The name is exchanged for one whose local name another one has had to give up. -/
theorem keepsOthers_iff_of_superseded (hdistinct : (old.map (·.2.bound)).Nodup)
    (hold : old.Perm (x :: z :: others)) (hnew : new.Perm (y :: others))
    (hbound : z.2.bound = y.2.bound) :
    KeepsOthers (· = x) old new ↔ bindingTriple z = bindingTriple y := by
  have hnodup := nodup_bounds_of_perm hold hdistinct
  have hothers := (List.nodup_cons.1 hnodup).2
  constructor
  · intro h
    have hne : z ≠ x := fun heq => ne_of_nodup_bounds hnodup (List.mem_cons_self ..) (heq ▸ rfl)
    have hz := h.others z (hold.symm.subset (List.mem_cons_of_mem _ (List.mem_cons_self ..))) hne
    obtain ⟨u, hu, heq⟩ := List.mem_map.1 hz
    rcases List.mem_cons.1 (hnew.subset hu) with rfl | hu
    · exact heq.symm
    · exact absurd (congrArg (·.2.2) heq) (ne_of_nodup_bounds hothers hu)
  · intro h
    have hfresh : ((y :: others).map (·.2.bound)).Nodup := by
      rw [List.map_cons, ← hbound]
      exact hothers
    refine ⟨nodup_bounds_of_perm hnew.symm hfresh, fun u hu hne => ?_⟩
    rcases List.mem_cons.1 (hold.subset hu) with rfl | hu
    · exact absurd rfl hne
    · rcases List.mem_cons.1 hu with rfl | hu
      · exact h ▸ List.mem_map_of_mem (hnew.symm.subset (List.mem_cons_self ..))
      · exact List.mem_map_of_mem (hnew.symm.subset (List.mem_cons_of_mem _ hu))

end

/-! ## What a list drops -/

section

variable {left right : List Specifier} {moved : Specifier}

theorem any_bound_left (hdistinct : ((left ++ right).map (·.bound)).Nodup) {t : Specifier}
    (ht : t ∈ right) : left.any (·.bound == t.bound) = false := by
  rw [List.map_append] at hdistinct
  refine List.any_eq_false.2 fun s hs heq => ?_
  exact List.disjoint_of_nodup_append hdistinct (List.mem_map_of_mem hs)
    (List.mem_map.2 ⟨t, ht, (beq_iff_eq.1 heq).symm⟩)

/-- A renamed item is dropped when its local name has come before. -/
theorem dropRebound_renamed_of_mem (hdistinct : ((left ++ right).map (·.bound)).Nodup)
    (h : moved.bound ∈ left.map (·.bound)) : dropRebound (left ++ moved :: right) = left ++ right := by
  have hparts : (left.map (·.bound) ++ right.map (·.bound)).Nodup := by rwa [← List.map_append]
  have hsplit : left ++ moved :: right = (left ++ [moved]) ++ right := by simp
  have hany : left.any (·.bound == moved.bound) = true := by simpa using h
  have hright : right.filter (fun t => !left.any (·.bound == t.bound)) = right :=
    List.filter_eq_self.2 fun t ht => by rw [any_bound_left hdistinct ht, Bool.not_false]
  rw [hsplit, dropRebound_append hparts.of_append_right, dropRebound_concat,
    dropRebound_eq_self hparts.of_append_left, if_pos hany, hright]

/-- A renamed item stays otherwise, and the one behind it that has its local name goes. -/
theorem dropRebound_renamed_of_notMem (hdistinct : ((left ++ right).map (·.bound)).Nodup)
    (h : moved.bound ∉ left.map (·.bound)) : dropRebound (left ++ moved :: right) =
      left ++ moved :: right.filter (·.bound != moved.bound) := by
  have hparts : (left.map (·.bound) ++ right.map (·.bound)).Nodup := by rwa [← List.map_append]
  have hsplit : left ++ moved :: right = (left ++ [moved]) ++ right := by simp
  have hany : left.any (·.bound == moved.bound) = false := by simpa using h
  have hright : right.filter (fun t => !(left ++ [moved]).any (·.bound == t.bound)) =
      right.filter (·.bound != moved.bound) := by
    refine List.filter_congr fun t ht => ?_
    rw [List.any_append, any_bound_left hdistinct ht, Bool.false_or, List.any_cons, List.any_nil,
      Bool.or_false]
    exact congrArg (!·) Bool.beq_comm
  rw [hsplit, dropRebound_append hparts.of_append_right, dropRebound_concat,
    dropRebound_eq_self hparts.of_append_left, if_neg (by simp [hany]), hright, List.append_assoc,
    List.singleton_append]

end

/-! ## Renaming within a list -/

/-- The imported names of a text, with those that one list imports from a module among them. -/
def listed (front behind : List (List Char × Specifier)) (module : List Char) (items : List Specifier) :
    List (List Char × Specifier) :=
  front ++ (items.map (fun t => (module, t)) ++ behind)

section

variable {front behind : List (List Char × Specifier)} {module : List Char}
  {left right items : List Specifier} {s t u moved : Specifier} {z : List Char × Specifier}

theorem mem_listed (ht : t ∈ items) : (module, t) ∈ listed front behind module items :=
  List.mem_append_right _ (List.mem_append_left _ (List.mem_map_of_mem ht))

theorem nodup_of_listed (h : ((listed front behind module items).map (·.2.bound)).Nodup) :
    (items.map (·.bound)).Nodup := by
  rw [listed, List.map_append, List.map_append, List.map_map] at h
  exact h.of_append_right.of_append_left

theorem perm_listed (front behind : List (List Char × Specifier)) (module : List Char)
    (left right : List Specifier) (s : Specifier) : (listed front behind module (left ++ s :: right)).Perm
      ((module, s) :: listed front behind module (left ++ right)) := by
  have hmiddle : ((front ++ left.map fun t => (module, t)) ++ (module, s) ::
      (right.map (fun t => (module, t)) ++ behind)).Perm ((module, s) ::
        ((front ++ left.map fun t => (module, t)) ++ (right.map (fun t => (module, t)) ++ behind))) :=
    List.perm_middle
  simpa [listed] using hmiddle

variable (hdistinct : ((listed front behind module (left ++ s :: right)).map (·.2.bound)).Nodup)

include hdistinct

theorem nodup_others : ((left ++ right).map (·.bound)).Nodup :=
  nodup_of_listed (List.nodup_cons.1 (nodup_bounds_of_perm (perm_listed ..) hdistinct)).2

theorem ne_of_mem_others (ht : t ∈ left ++ right) : (module, t) ≠ (module, s) := by
  have hne := ne_of_nodup_bounds (nodup_bounds_of_perm (perm_listed ..) hdistinct) (mem_listed ht)
  exact fun heq => hne (heq ▸ rfl)

omit hdistinct in
theorem mem_listed_of_mem_others (ht : t ∈ left ++ right) :
    (module, t) ∈ listed front behind module (left ++ s :: right) :=
  (perm_listed ..).symm.subset (List.mem_cons_of_mem _ (mem_listed ht))

theorem eq_of_mem_others (ht : t ∈ left ++ right)
    (hz : z ∈ listed front behind module (left ++ s :: right)) (h : z.2.bound = t.bound) :
    z = (module, t) :=
  List.inj_on_of_nodup_map hdistinct hz (mem_listed_of_mem_others ht) h

/-- The renamed item goes when one in front of it has its local name, and that one stays. -/
theorem keepsOthers_dropRebound_of_left (ht : t ∈ left) (hbound : t.bound = moved.bound) :
    KeepsOthers (· = (module, s)) (listed front behind module (left ++ s :: right))
      (listed front behind module (dropRebound (left ++ moved :: right))) := by
  rw [dropRebound_renamed_of_mem (nodup_others hdistinct) (List.mem_map.2 ⟨t, ht, hbound⟩)]
  exact keepsOthers_of_removed hdistinct (perm_listed ..) (List.Perm.refl _)

/-- Of two items with one local name the one behind goes. -/
theorem keepsOthers_dropRebound_of_right (hleft : moved.bound ∉ left.map (·.bound)) (hu : u ∈ right)
    (hbound : u.bound = moved.bound) :
    KeepsOthers (· = (module, s)) (listed front behind module (left ++ s :: right))
        (listed front behind module (dropRebound (left ++ moved :: right))) ↔
      u.imported = moved.imported := by
  have hothers := nodup_others hdistinct
  rw [dropRebound_renamed_of_notMem hothers hleft]
  obtain ⟨near, far, rfl⟩ := List.append_of_mem hu
  have hfilter : (near ++ u :: far).filter (·.bound != moved.bound) = near ++ far := by
    rw [List.map_append] at hothers
    have hright := hothers.of_append_right
    rw [List.map_append, List.map_cons, List.nodup_middle, List.nodup_cons, ← List.map_append] at hright
    rw [List.filter_append, List.filter_cons_of_neg (by simpa using hbound), ← List.filter_append]
    refine List.filter_eq_self.2 fun t ht => bne_iff_ne.2 fun heq => hright.1 ?_
    exact List.mem_map.2 ⟨t, ht, heq.trans hbound.symm⟩
  have hold : (listed front behind module (left ++ s :: (near ++ u :: far))).Perm
      ((module, s) :: (module, u) :: listed front behind module (left ++ (near ++ far))) := by
    refine (perm_listed ..).trans (List.Perm.cons _ ?_)
    rw [← List.append_assoc, ← List.append_assoc]
    exact perm_listed ..
  rw [hfilter, keepsOthers_iff_of_superseded hdistinct hold (perm_listed ..) hbound]
  simp [bindingTriple, hbound]

/-- Renaming in a list keeps the others unless another one has the new local name; but one in front of
the renamed item stays in place of it, and one behind it that is the same name is not missed. -/
theorem keepsOthers_dropRebound_iff :
    KeepsOthers (· = (module, s)) (listed front behind module (left ++ s :: right))
        (listed front behind module (dropRebound (left ++ moved :: right))) ↔
      ∀ z ∈ listed front behind module (left ++ s :: right), z ≠ (module, s) →
        z.2.bound = moved.bound →
          z.1 = module ∧ (z.2 ∈ left ∨ z.2 ∈ right ∧ z.2.imported = moved.imported) := by
  by_cases hleft : moved.bound ∈ left.map (·.bound)
  · obtain ⟨t, ht, hbound⟩ := List.mem_map.1 hleft
    refine iff_of_true (keepsOthers_dropRebound_of_left hdistinct ht hbound) fun z hz _ heq => ?_
    obtain rfl := eq_of_mem_others hdistinct (List.mem_append_left _ ht) hz (heq.trans hbound.symm)
    exact ⟨rfl, .inl ht⟩
  · by_cases hright : moved.bound ∈ right.map (·.bound)
    · obtain ⟨u, hu, hbound⟩ := List.mem_map.1 hright
      have hmem : u ∈ left ++ right := List.mem_append_right _ hu
      rw [keepsOthers_dropRebound_of_right hdistinct hleft hu hbound]
      constructor
      · intro himported z hz _ heq
        obtain rfl := eq_of_mem_others hdistinct hmem hz (heq.trans hbound.symm)
        exact ⟨rfl, .inr ⟨hu, himported⟩⟩
      · intro h
        obtain ⟨-, hin | ⟨-, himported⟩⟩ :=
          h (module, u) (mem_listed_of_mem_others hmem) (ne_of_mem_others hdistinct hmem) hbound
        · exact absurd (List.mem_map.2 ⟨u, hin, hbound⟩) hleft
        · exact himported
    · have hfilter : right.filter (·.bound != moved.bound) = right :=
        List.filter_eq_self.2 fun t ht => bne_iff_ne.2 fun heq => hright (List.mem_map.2 ⟨t, ht, heq⟩)
      have hexchanged : Exchanged (module, s) (module, moved)
          (listed front behind module (left ++ s :: right))
          (listed front behind module (left ++ moved :: right)) :=
        ⟨front ++ left.map fun t => (module, t), (right.map fun t => (module, t)) ++ behind, _, _,
          by simp [listed], by simp [listed], rfl⟩
      rw [dropRebound_renamed_of_notMem (nodup_others hdistinct) hleft, hfilter,
        keepsOthers_iff_of_exchanged hdistinct hexchanged, forall_bound_ne_iff]
      rintro z - ⟨-, hin | ⟨hin, -⟩⟩ heq
      · exact hleft (List.mem_map.2 ⟨z.2, hin, heq⟩)
      · exact hright (List.mem_map.2 ⟨z.2, hin, heq⟩)

end

/-! ## The edits -/

/-- The edit makes do with an imported name that has the local name of the moved one. Renamed in place,
the name gives way to one in front of it in the list, and takes the place of itself behind it; moved, it
gives way to any name of the list it comes to. -/
def Absorbs (text : List Char) (f : Found ImportDecl) (i : Nat) (target new : List Char)
    (z : List Char × Specifier) : Prop :=
  if target = f.value.module then
    z.1 = target ∧ (z.2 ∈ (f.value.named.getD []).take i ∨
      z.2 ∈ (f.value.named.getD []).drop (i + 1) ∧ z.2.imported = new)
  else ∃ g, (imports text).find? (takes target f) = some g ∧ z.1 = target ∧ z.2 ∈ g.value.named.getD []

section

variable {text : List Char} {f : Found ImportDecl} {left right : List Specifier} {s : Specifier}
  (hnames : ∀ x ∈ bindings text, x.2.Braceless) (hdistinct : ((bindings text).map (·.2.bound)).Nodup)
  (hf : f ∈ imports text) (hitems : f.value.named.getD [] = left ++ s :: right)
  {target new : List Char} (hmoved : (s.renamed new).Legible)

include hnames hdistinct hf hitems hmoved

/-- A name is renamed in place. -/
theorem keepsOthers_renameInPlace_iff :
    KeepsOthers (· = (f.value.module, s)) (bindings text)
        (bindings (splice text [renameInPlace f left.length (s.renamed new)])) ↔
      ∀ z ∈ bindings text, z ≠ (f.value.module, s) → z.2.bound = (s.renamed new).bound →
        Absorbs text f left.length f.value.module new z := by
  obtain ⟨before, after, h⟩ := List.append_of_mem hf
  have hright : (left ++ s :: right).drop (left.length + 1) = right := by simp
  simp only [Absorbs, if_true, hitems, List.take_left, hright]
  rw [bindings_renameInPlace hnames hitems hmoved h]
  rw [bindings_eq h hitems] at hdistinct ⊢
  exact keepsOthers_dropRebound_iff hdistinct

/-- A name goes to another declaration, or onto a line of its own. -/
theorem keepsOthers_addItem_iff (htarget : IsModule target) (hother : target ≠ f.value.module) :
    KeepsOthers (· = (f.value.module, s)) (bindings text)
        (bindings (splice text (withoutItem text f left.length ::
          addItem text target f (s.renamed new)))) ↔
      ∀ z ∈ bindings text, z ≠ (f.value.module, s) → z.2.bound = (s.renamed new).bound →
        Absorbs text f left.length target new z := by
  simp only [Absorbs, if_neg hother]
  obtain ⟨before, after, h⟩ := List.append_of_mem hf
  rw [← filterMap_edit?_additions hf]
  rcases additions_cases hf target (s.renamed new) with
    ⟨g, hg, hany, hadd⟩ | ⟨g, hg, hany, hadd⟩ | ⟨last, hnone, hlast, hadd⟩
  · -- the other declaration has the local name, and the moved name goes
    obtain ⟨hmem, rfl, -⟩ := start_ne_of_takes hg
    obtain ⟨t, ht, hbound⟩ := List.any_eq_true.1 hany
    have hkeeps : KeepsOthers (· = (f.value.module, s)) (bindings text)
        (bindings (splice text [withoutItem text f left.length])) := by
      rw [bindings_withoutItem hnames hitems h]
      refine keepsOthers_of_removed hdistinct ?_ (List.Perm.refl _)
      rw [bindings_eq h hitems]
      exact perm_listed ..
    rw [hadd]
    refine iff_of_true hkeeps fun z hz _ heq => ⟨g, hg, ?_⟩
    obtain rfl : z = (g.value.module, t) :=
      List.inj_on_of_nodup_map hdistinct hz (mem_bindings hmem ht) (heq.trans (beq_iff_eq.1 hbound).symm)
    exact ⟨rfl, ht⟩
  · obtain ⟨hmem, rfl, hstart⟩ := start_ne_of_takes hg
    have hexchanged := exchanged_withItem hnames hitems hmoved hf hmem hstart g.value.withBraces.braces
    rw [hadd]
    refine (keepsOthers_iff_of_exchanged hdistinct hexchanged).trans (forall_bound_ne_iff ?_)
    rintro z - ⟨g', hg', -, hin⟩ heq
    obtain rfl := Option.some.inj (hg.symm.trans hg')
    exact List.any_eq_false.1 hany z.2 hin (beq_iff_eq.2 heq)
  · obtain ⟨p⟩ := nonempty_place hf
    have hexchanged := exchanged_lineEdit hnames hitems hmoved h hlast
      (isRead_newLine htarget p.renderable.1.quote f.value.semicolon)
    rw [hadd]
    refine (keepsOthers_iff_of_exchanged hdistinct hexchanged).trans (forall_bound_ne_iff ?_)
    rintro z - ⟨g, hg, -⟩
    rw [hnone] at hg
    cases hg

end

/-! ## Any edit -/

theorem Specifier.renamed_imported (s : Specifier) : s.renamed s.imported = s := by
  have hbound : (if s.bound = s.imported then s.imported else s.bound) = s.bound := by
    split
    · next hsame => exact hsame.symm
    · rfl
  rw [renamed, hbound]

theorem keepsOthers_self {all : List (List Char × Specifier)} (h : (all.map (·.2.bound)).Nodup)
    (edited : List Char × Specifier → Prop) : KeepsOthers edited all all :=
  ⟨h, fun _ hx _ => List.mem_map_of_mem hx⟩

theorem keepsOthers_repointed {all : List (List Char × Specifier)} (h : (all.map (·.2.bound)).Nodup)
    (old new : List Char) : KeepsOthers (·.1 = old) all (all.map (repointed old new)) := by
  have hbound : (fun x : List Char × Specifier => x.2.bound) ∘ repointed old new = (·.2.bound) := by
    funext x
    dsimp only [Function.comp_apply, repointed]
    split <;> rfl
  refine ⟨?_, fun x hx hmodule => ?_⟩
  · rw [List.map_map, hbound]
    exact h
  · have hself : repointed old new x = x := if_neg hmodule
    exact hself ▸ List.mem_map_of_mem (List.mem_map_of_mem hx)

/-- Every name of a module is taken from another one. -/
theorem keepsOthers_repointImports {text old new : List Char}
    (hnames : ∀ x ∈ bindings text, x.2.Braceless) (hdistinct : ((bindings text).map (·.2.bound)).Nodup)
    (hnew : new ≠ old → IsModule new) :
    KeepsOthers (·.1 = old) (bindings text) (bindings (repointImports text old new)) := by
  by_cases hkept : old.isEmpty || old == new
  · rw [repointImports, if_pos hkept]
    exact keepsOthers_self hdistinct _
  · have hdiffer : old ≠ [] ∧ old ≠ new := by simpa using hkept
    rw [bindings_repointImports hnames (hnew hdiffer.2.symm) hdiffer.1]
    exact keepsOthers_repointed hdistinct _ _

/-- One name is renamed in place or moved. -/
theorem keepsOthers_moveImport_iff {text source old target new : List Char} {f : Found ImportDecl}
    {i : Nat} {s : Specifier} (hnames : ∀ x ∈ bindings text, x.2.Braceless)
    (hdistinct : ((bindings text).map (·.2.bound)).Nodup)
    (hfound : findImported? text source old = some (f, i, s)) (hmoved : (s.renamed new).Legible)
    (htarget : target ≠ source → IsModule target) :
    KeepsOthers (· = (source, s)) (bindings text) (bindings (moveImport text source old target new)) ↔
      ∀ z ∈ bindings text, z ≠ (source, s) → z.2.bound = (s.renamed new).bound →
        Absorbs text f i target new z := by
  obtain ⟨hf, rfl, hitem, rfl⟩ := of_findImported? hfound
  obtain ⟨left, right, hitems, rfl⟩ := exists_split_of_getElem? hitem
  rw [moveImport_eq hfound]
  by_cases hsame : target = f.value.module
  · subst hsame
    rw [if_pos rfl]
    by_cases hold : new = s.imported
    · -- nothing is done, and the local name stays what it was
      subst hold
      rw [if_pos rfl, s.renamed_imported]
      refine iff_of_true (keepsOthers_self hdistinct _) fun z hz hne hbound => ?_
      exact absurd (List.inj_on_of_nodup_map hdistinct hz
        (mem_bindings hf (List.mem_of_getElem? hitem)) hbound) hne
    · rw [if_neg hold]
      exact keepsOthers_renameInPlace_iff hnames hdistinct hf hitems hmoved
  · rw [if_neg hsame]
    exact keepsOthers_addItem_iff hnames hdistinct hf hitems hmoved (htarget hsame) hsame

/-- The imported names that an edit is about. -/
def Edited (text source : List Char) (named : Option (List Char)) (x : List Char × Specifier) : Prop :=
  match given? named with
  | none => x.1 = source
  | some old => (bindings text).find? (isFor source old) = some x

/-- The edit gives the moved name the local name of another one, and does not make do with that. -/
def Clash (text source : List Char) (named : Option (List Char)) (target : List Char)
    (newName : Option (List Char)) (z : List Char × Specifier) : Prop :=
  ∃ old ∈ given? named, ∃ f i s, findImported? text source old = some (f, i, s) ∧
    z ∈ bindings text ∧ z ≠ (source, s) ∧
    z.2.bound = (s.renamed ((given? newName).getD old)).bound ∧
    ¬ Absorbs text f i ((given? (some target)).getD source) ((given? newName).getD old) z

section

variable {text source old target : List Char} {newName : Option (List Char)}

theorem not_clash_of_none {named : Option (List Char)} (h : given? named = none)
    (z : List Char × Specifier) : ¬ Clash text source named target newName z := by
  rintro ⟨old, hold, -⟩
  rw [h] at hold
  cases hold

theorem forall_not_clash_iff {named : Option (List Char)} (hnamed : given? named = some old)
    {f : Found ImportDecl} {i : Nat} {s : Specifier}
    (hfound : findImported? text source old = some (f, i, s)) :
    (∀ z, ¬ Clash text source named target newName z) ↔
      ∀ z ∈ bindings text, z ≠ (source, s) →
        z.2.bound = (s.renamed ((given? newName).getD old)).bound →
          Absorbs text f i ((given? (some target)).getD source) ((given? newName).getD old) z := by
  constructor
  · intro h z hz hne hbound
    by_contra habsorbs
    exact h z ⟨old, hnamed, f, i, s, hfound, hz, hne, hbound, habsorbs⟩
  · rintro h z ⟨old', hold', f', i', s', hfound', hz, hne, hbound, habsorbs⟩
    obtain rfl : old = old' := Option.some.inj (hnamed.symm.trans hold')
    rw [hfound] at hfound'
    cases hfound'
    exact habsorbs (h z hz hne hbound)

theorem edited_eq {named : Option (List Char)} (hnamed : given? named = some old)
    {f : Found ImportDecl} {i : Nat} {s : Specifier}
    (hfound : findImported? text source old = some (f, i, s)) :
    Edited text source named = (· = (f.value.module, s)) := by
  have hfind : (bindings text).find? (isFor source old) = some (f.value.module, s) := by
    rw [← map_findImported?, hfound]
    rfl
  funext x
  simp only [Edited, hnamed, hfind, Option.some.injEq]
  exact propext eq_comm

/-- The item with its new name can be read back, given or not. -/
theorem legible_renamed_given {s : Specifier} (h : s.Legible) (hname : ∀ new ∈ given? newName, IsName new)
    (htype : given? newName = some "type".toList → s.bound = s.imported ∨ s.typeOnly = true) :
    (s.renamed ((given? newName).getD s.imported)).Legible := by
  cases hnew : given? newName with
  | none =>
    rw [Option.getD_none, s.renamed_imported]
    exact h
  | some new => exact h.renamed (hname new hnew) fun heq => htype (hnew.trans (congrArg some heq))

/-- An edit of imports leaves no local name to two imported names and loses no name but the edited one,
exactly when the new local name clashes with none. -/
theorem editImport_keeps_bindings_iff {named : Option (List Char)}
    (hnames : ∀ x ∈ bindings text, x.2.Braceless) (hdistinct : ((bindings text).map (·.2.bound)).Nodup)
    (htarget : target = [] ∨ IsModule target) (hname : ∀ new ∈ given? newName, IsName new)
    (htype : given? newName = some "type".toList → ∀ x, Edited text source named x →
      x.2.bound = x.2.imported ∨ x.2.typeOnly = true) :
    KeepsOthers (Edited text source named) (bindings text)
        (bindings (editImport text source named target newName)) ↔
      ∀ z, ¬ Clash text source named target newName z := by
  have htarget' : (given? (some target)).getD source ≠ source →
      IsModule ((given? (some target)).getD source) := by
    intro hother
    rcases htarget with rfl | htarget
    · exact absurd rfl hother
    · rw [given?_eq_some htarget.ne_nil]
      exact htarget
  unfold editImport
  dsimp only
  cases hnamed : given? named with
  | none =>
    have hedited : Edited text source named = (·.1 = source) := by
      funext x
      simp only [Edited, hnamed]
    rw [hedited]
    exact iff_of_true (keepsOthers_repointImports hnames hdistinct htarget') (not_clash_of_none hnamed)
  | some old =>
    dsimp only
    cases hfound : findImported? text source old with
    | none =>
      rw [moveImport, hfound]
      refine iff_of_true (keepsOthers_self hdistinct _) ?_
      rintro z ⟨old', hold', f, i, s, hfound', -⟩
      obtain rfl : old = old' := Option.some.inj (hnamed.symm.trans hold')
      rw [hfound] at hfound'
      cases hfound'
    | some found =>
      obtain ⟨f, i, s⟩ := found
      obtain ⟨hf, rfl, hitem, rfl⟩ := of_findImported? hfound
      have hedited := edited_eq hnamed hfound
      have hmoved : (s.renamed ((given? newName).getD s.imported)).Legible := by
        refine legible_renamed_given (legible_of_mem hnames hf s (List.mem_of_getElem? hitem)) hname ?_
        exact fun hnew => htype hnew (f.value.module, s) (by rw [hedited])
      rw [forall_not_clash_iff hnamed hfound, hedited]
      exact keepsOthers_moveImport_iff hnames hdistinct hfound hmoved htarget'

end

/-- A new local name that no one has does no harm; one that an item behind has makes that item go. -/
theorem editImport_keeps_bindings_iff_sample :
    let text := "import \x7b a, c as b \x7d from 'm';\n".toList
    let m := "m".toList
    KeepsOthers (Edited text m (some "a".toList)) (bindings text)
        (bindings (editImport text m (some "a".toList) m (some "d".toList))) ∧
      ¬ KeepsOthers (Edited text m (some "a".toList)) (bindings text)
        (bindings (editImport text m (some "a".toList) m (some "b".toList))) := by
  intro text m
  let s : Specifier := ⟨"a".toList, "a".toList, false⟩
  let z : List Char × Specifier := (m, ⟨"c".toList, "b".toList, false⟩)
  have hbindings : bindings text = [(m, s), z] := by decide +kernel
  have hnames : ∀ x ∈ bindings text, x.2.Braceless := by
    have hplain : ∀ x ∈ bindings text, IsName x.2.imported ∧ IsName x.2.bound := by
      rw [hbindings]
      decide
    exact fun x hx => Specifier.WellFormed.braceless (.inl (hplain x hx))
  have hdistinct : ((bindings text).map (·.2.bound)).Nodup := by
    rw [hbindings]
    decide
  obtain ⟨f, hfound, hmodule, hitems⟩ : ∃ f, findImported? text m "a".toList = some (f, 0, s) ∧
      f.value.module = m ∧ f.value.named.getD [] = [s, z.2] := ⟨_, rfl, rfl, rfl⟩
  constructor
  · refine (editImport_keeps_bindings_iff hnames hdistinct (.inr (by decide)) ?_
      fun h => absurd h (by decide)).2 ?_
    · rintro new ⟨⟩
      decide
    · rw [forall_not_clash_iff rfl hfound, hbindings]
      intro y hy hne hbound
      exact absurd hbound (by revert y; decide)
  · rw [editImport_keeps_bindings_iff hnames hdistinct (.inr (by decide)) ?_
      fun h => absurd h (by decide)]
    · intro h
      refine h z ⟨_, rfl, f, 0, s, hfound, by rw [hbindings]; decide, by decide, by decide, ?_⟩
      change ¬ Absorbs text f 0 m "b".toList z
      rw [Absorbs, if_pos hmodule.symm, hitems]
      decide
    · rintro new ⟨⟩
      decide

end Codemod.Source
