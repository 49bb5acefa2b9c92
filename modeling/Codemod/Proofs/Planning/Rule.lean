import Codemod.Planning.Rule
import Codemod.Proofs.Plan.Compilation

/-! Plans made by rules. A rule that edits makes one edit for each file and name among the diagnostics it
recognises, and it applies just when it makes one at all. So a plan of several rules is all that they
propose, one after the other. -/
namespace Codemod

/-- `once` holds what `all` holds, each entry once and in the order in which they come first. -/
structure FirstSeen [DecidableEq α] (once all : List α) : Prop where
  mem_iff : ∀ a, a ∈ once ↔ a ∈ all
  ordered : once.Pairwise fun a b => all.idxOf a < all.idxOf b

theorem firstSeen_eraseDups [DecidableEq α] (all : List α) : FirstSeen all.eraseDups all where
  mem_iff _ := List.mem_eraseDups
  ordered := pairwise_idxOf_eraseDups all

theorem eraseDups_concat [DecidableEq α] (l : List α) (a : α) :
    (l ++ [a]).eraseDups = if a ∈ l then l.eraseDups else l.eraseDups ++ [a] := by
  rw [List.eraseDups_append]
  by_cases ha : a ∈ l <;> simp [List.removeAll, ha, List.eraseDups_cons]

theorem flatMap_filter_of_eq_nil {p : α → Bool} {f : α → List β} {l : List α}
    (h : ∀ a ∈ l, p a = false → f a = []) : (l.filter p).flatMap f = l.flatMap f := by
  induction l with
  | nil => rfl
  | cons a l ih =>
    rw [List.forall_mem_cons] at h
    cases hp : p a with
    | true => rw [List.filter_cons_of_pos hp, List.flatMap_cons, List.flatMap_cons, ih h.2]
    | false =>
      rw [List.filter_cons_of_neg (by simp [hp]), List.flatMap_cons, h.1 hp, List.nil_append, ih h.2]

namespace Rule

/-- What a rule answers: a name in a file. -/
structure Subject where
  file : String
  name : String
  deriving DecidableEq

/-- What tells two findings of a rule apart. -/
def Finding.subject (f : Finding) : Subject := ⟨f.file, f.name⟩

theorem distinct_concat (fs : List Finding) (f : Finding) :
    distinct (fs ++ [f]) =
      if f.subject ∈ (distinct fs).map Finding.subject then distinct fs else distinct fs ++ [f] := by
  have hany : ((distinct fs).any fun k => k.file == f.file && k.name == f.name) = true ↔
      f.subject ∈ (distinct fs).map Finding.subject := by
    simp [Finding.subject, Subject.mk.injEq]
  have hstep : distinct (fs ++ [f]) =
      if (distinct fs).any fun k => k.file == f.file && k.name == f.name then distinct fs
      else distinct fs ++ [f] := by
    simp [distinct]
  rw [hstep]
  exact if_congr hany rfl rfl

theorem map_subject_distinct (fs : List Finding) :
    (distinct fs).map Finding.subject = (fs.map Finding.subject).eraseDups := by
  induction fs using List.reverseRecOn with
  | nil => simp [distinct]
  | append_singleton fs f ih =>
    rw [distinct_concat, List.map_append, List.map_singleton, eraseDups_concat,
      apply_ite (List.map Finding.subject), List.map_append, List.map_singleton, ih]
    exact if_congr List.mem_eraseDups rfl rfl

theorem subset_of_distinct (fs : List Finding) : distinct fs ⊆ fs := by
  induction fs using List.reverseRecOn with
  | nil => simp [distinct]
  | append_singleton fs f ih =>
    rw [distinct_concat]
    split
    · exact List.subset_append_of_subset_left [f] ih
    · exact List.append_subset.2 ⟨List.subset_append_of_subset_left [f] ih, by simp⟩

theorem distinct_eq_nil_iff {fs : List Finding} : distinct fs = [] ↔ fs = [] := by
  refine ⟨fun h => ?_, fun h => by rw [h]; rfl⟩
  have hsubjects := map_subject_distinct fs
  rw [h, List.map_nil] at hsubjects
  have hnone : ∀ s, s ∉ fs.map Finding.subject := by
    intro s hs
    have hmem := List.mem_eraseDups.2 hs
    rw [← hsubjects] at hmem
    cases hmem
  exact List.map_eq_nil_iff.1 (List.eq_nil_iff_forall_not_mem.2 hnone)

/-- A rule of one of the kinds that make edits. -/
def Edits : Rule → Prop
  | .noOp _ => False
  | .missingExport .. | .routeAttribute .. => True

instance (rule : Rule) : Decidable rule.Edits := by
  cases rule <;> unfold Edits <;> infer_instance

/-- What the diagnostics that a rule recognises are about. -/
def subjects (rule : Rule) (ds : List Diagnostic) : List Subject :=
  ds.filterMap fun d =>
    match rule with
    | .noOp _ => none
    | .missingExport _ module renames => (renamed? module renames d).map fun found => ⟨d.file, found.1⟩
    | .routeAttribute .. => (attribute? d).map fun name => ⟨d.file, name⟩

/-- The edit that answers a subject. -/
def answer (rule : Rule) (s : Subject) : Op :=
  match rule with
  | .noOp _ => .formatFiles []
  | .missingExport _ module renames =>
    .editImport s.file module (some s.name) module (Json.get? renames s.name)
  | .routeAttribute _ tag =>
    if s.name = "component" then .convertAttribute s.file tag "component" "element"
    else .removeAttribute s.file tag "exact"

variable {rule : Rule} {ds : List Diagnostic}

theorem renamed?_new {module name new : String} {renames : List (String × String)} {d : Diagnostic}
    (h : renamed? module renames d = some (name, new)) : Json.get? renames name = some new := by
  unfold renamed? at h
  split at h
  · cases h
  · obtain ⟨⟨m, n⟩, -, h⟩ := Option.bind_eq_some_iff.1 h
    dsimp only at h
    split at h
    · cases h
    · obtain ⟨new', hnew, h⟩ := Option.map_eq_some_iff.1 h
      obtain ⟨rfl, rfl⟩ := Prod.mk.inj h
      exact hnew

theorem finding?_op {d : Diagnostic} {f : Finding} (h : rule.finding? d = some f) :
    f.op = rule.answer f.subject := by
  cases rule with
  | noOp id => cases h
  | missingExport id module renames =>
    obtain ⟨⟨name, new⟩, hfound, rfl⟩ := Option.map_eq_some_iff.1 h
    simp only [answer, Finding.subject, renamed?_new hfound]
  | routeAttribute id tag =>
    obtain ⟨name, -, hf⟩ := Option.map_eq_some_iff.1 h
    by_cases hname : name = "component"
    · rw [if_pos (beq_iff_eq.2 hname)] at hf
      rw [← hf]
      exact (if_pos hname).symm
    · rw [if_neg (mt beq_iff_eq.1 hname)] at hf
      rw [← hf]
      exact (if_neg hname).symm

theorem map_subject_findings : (ds.filterMap rule.finding?).map Finding.subject = rule.subjects ds := by
  rw [List.map_filterMap]
  refine List.filterMap_congr fun d _ => ?_
  cases rule with
  | noOp id => rfl
  | missingExport id module renames =>
    simp only [finding?, Option.map_map]
    rfl
  | routeAttribute id tag =>
    simp only [finding?, Option.map_map]
    cases attribute? d with
    | none => rfl
    | some name =>
      simp only [Option.map_some, Function.comp_apply, Option.some.injEq]
      split <;> rfl

/-- A rule that edits answers each subject once. -/
theorem ops_propose (h : rule.Edits) (ds : List Diagnostic) :
    (rule.propose ds).ops = (rule.subjects ds).eraseDups.map rule.answer := by
  have hpropose : (rule.propose ds).ops = (distinct (ds.filterMap rule.finding?)).map (·.op) := by
    cases rule with
    | noOp id => exact h.elim
    | _ => rfl
  rw [hpropose, ← map_subject_findings, ← map_subject_distinct, List.map_map]
  refine List.map_congr_left fun f hf => ?_
  obtain ⟨d, -, hd⟩ := List.mem_filterMap.1 (subset_of_distinct _ hf)
  exact finding?_op hd

theorem targets_iff (h : rule.Edits) (ds : List Diagnostic) :
    rule.targets ds = true ↔ distinct (ds.filterMap rule.finding?) ≠ [] := by
  have htargets : rule.targets ds = ds.any fun d => (rule.finding? d).isSome := by
    cases rule with
    | noOp id => exact h.elim
    | _ => rfl
  rw [htargets, ne_eq, distinct_eq_nil_iff, List.filterMap_eq_nil_iff]
  simp [Option.isSome_iff_ne_none]

theorem targets_iff_ops (h : rule.Edits) (ds : List Diagnostic) :
    rule.targets ds = true ↔ (rule.propose ds).ops ≠ [] := by
  rw [targets_iff h]
  cases rule with
  | noOp id => exact h.elim
  | _ => simp [propose]

/-- A rule that does not apply proposes nothing. -/
theorem propose_of_not_targets (h : rule.Edits) (hnot : rule.targets ds = false) :
    (rule.propose ds).ops = [] ∧ (rule.propose ds).why = [] ∧ (rule.propose ds).targetCodes = [] := by
  have hnil : distinct (ds.filterMap rule.finding?) = [] := by
    by_contra hne
    rw [(targets_iff h ds).2 hne] at hnot
    cases hnot
  cases rule with
  | noOp id => exact h.elim
  | _ => simp [propose, hnil]

/-- The parts of the plan that stem from rules that do not apply are empty. -/
theorem flatMap_proposals {rules : List Rule} {part : Plan → List β}
    (hpart : ∀ rule ∈ rules, rule.targets ds = false → part (rule.propose ds) = []) :
    (((rules.filter (·.targets ds)).map (·.propose ds)).flatMap part) =
      rules.flatMap fun rule => part (rule.propose ds) := by
  rw [List.flatMap_map]
  exact flatMap_filter_of_eq_nil hpart

/-- Rules that edit answer what they recognise once. Each makes one edit for each file and name among the
diagnostics it recognises, in the order in which they come first, and it applies just when it makes one.
The plan of any rules of these kinds holds the edits and the reasons of all of them in their order, and
their codes as they are first seen. -/
theorem planAll_covers_once :
    (∀ (rule : Rule) (ds : List Diagnostic), rule.Edits →
      (∃ once, FirstSeen once (rule.subjects ds) ∧ (rule.propose ds).ops = once.map rule.answer) ∧
      (rule.targets ds = true ↔ (rule.propose ds).ops ≠ [])) ∧
    ∀ (rules : List Rule) (ds : List Diagnostic), (∀ rule ∈ rules, rule.Edits) →
      (planAll rules ds).ops = rules.flatMap (fun rule => (rule.propose ds).ops) ∧
      (planAll rules ds).why = rules.flatMap (fun rule => (rule.propose ds).why) ∧
      FirstSeen (planAll rules ds).targetCodes
        (rules.flatMap fun rule => (rule.propose ds).targetCodes) := by
  refine ⟨fun rule ds h => ⟨⟨_, firstSeen_eraseDups _, ops_propose h ds⟩, targets_iff_ops h ds⟩,
    fun rules ds h => ?_⟩
  have hnone (rule) (hr : rule ∈ rules) (hnot : rule.targets ds = false) :=
    propose_of_not_targets (h rule hr) hnot
  refine ⟨flatMap_proposals fun rule hr hnot => (hnone rule hr hnot).1,
    flatMap_proposals fun rule hr hnot => (hnone rule hr hnot).2.1, ?_⟩
  rw [← flatMap_proposals fun rule hr hnot => (hnone rule hr hnot).2.2]
  exact firstSeen_eraseDups _

/-- Two files miss the same member, one of them under two codes; another message is about a module that no
rule knows. -/
theorem planAll_covers_once_sample :
    let missing (code : Int) (file module : String) : Diagnostic :=
      { code, message := s!"Module '{module}' has no exported member 'Switch'.", file }
    let ds := [missing 2305 "src/App.tsx" "other", missing 2305 "src/App.tsx" routerModule,
      { code := 2322, message := "Property 'exact' does not exist on type 'P'.", file := "src/App.tsx" },
      missing 2724 "src/App.tsx" routerModule, missing 2724 "src/Menu.tsx" routerModule]
    let rename (file : String) : Op :=
      .editImport file routerModule (some "Switch") routerModule (some "Routes")
    exportRule.Edits ∧ exportRule.targets ds ∧
    (∀ rule ∈ [attributeRule, exportRule], rule.Edits) ∧
    (planAll [attributeRule, exportRule] ds).ops =
      [.removeAttribute "src/App.tsx" "Route" "exact", rename "src/App.tsx", rename "src/Menu.tsx"] := by
  intro missing ds rename
  have hedits : ∀ rule ∈ [attributeRule, exportRule], rule.Edits := by decide
  have hexport : (exportRule.propose ds).ops = [rename "src/App.tsx", rename "src/Menu.tsx"] := by
    decide +kernel
  have hattribute : (attributeRule.propose ds).ops =
      [.removeAttribute "src/App.tsx" "Route" "exact"] := by
    decide +kernel
  obtain ⟨hone, hall⟩ := planAll_covers_once
  refine ⟨trivial, (hone exportRule ds trivial).2.2 (by simp [hexport]), hedits, ?_⟩
  simpa [hexport, hattribute] using (hall _ ds hedits).1

end Rule
end Codemod
