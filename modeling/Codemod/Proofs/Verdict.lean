import Codemod.Verdict
import Mathlib.Data.List.Perm.Subperm
import Mathlib.Order.Defs.Unbundled

/-! When edits are kept. Both verdicts look for codes that were not there before; what they let through
adds up, since a code of the last of several snapshots has come in with one of them. And both only compare
counts and sets, so that fewer diagnostics never turn an acceptance into a rejection. -/
namespace Codemod

/-! ## New codes -/

theorem newCodes_eq_nil_iff {after : Snapshot} {known : List Int} :
    newCodes after known = [] ↔ ∀ code ∈ after.codes, code ∈ known := by
  have hp : (newCodes after known).Perm (after.codes.filter fun c => !known.contains c) :=
    List.mergeSort_perm _ _
  rw [← List.length_eq_zero_iff, hp.length_eq, List.length_eq_zero_iff, List.filter_eq_nil_iff]
  simp

/-- The second snapshot has no codes but those of the first one and some others. -/
def Adds (others : List Int) (s t : Snapshot) : Prop :=
  ∀ code ∈ t.codes, code ∈ s.codes ∨ code ∈ others

instance (others : List Int) : IsPreorder Snapshot (Adds others) where
  refl := fun _ _ h => .inl h
  trans := fun _ _ _ h h' code hc => (h' code hc).elim (h code) .inr

theorem judgeBatch_accepted_iff {before after : Snapshot} :
    (judgeBatch before after).accepted ↔ after.count ≤ before.count ∧ Adds [] before after := by
  unfold judgeBatch
  simp [List.isEmpty_iff, newCodes_eq_nil_iff, Adds]

namespace Policy

/-- How much the target has become more frequent. -/
def targetDelta (p : Policy) (after : Snapshot) : Int := match p.target with
  | none => 0
  | some t => (after.countMatching p.naming t.code (.ofString t.file) : Int) -
      p.baseline.countMatching p.naming t.code (.ofString t.file)

theorem judge_accepted_iff {p : Policy} {file : Path} {after : Snapshot} :
    (p.judge file after).accepted ↔ Adds p.allowed p.baseline after ∧
      (p.targetDelta after < 0 ∨ after.countInFile p.naming file ≤ p.baseline.countInFile p.naming file) := by
  have hnew : newCodes after (p.baseline.codes ++ p.allowed) = [] ↔ Adds p.allowed p.baseline after := by
    rw [newCodes_eq_nil_iff]
    exact forall₂_congr fun code _ => List.mem_append
  have haccepted : (p.judge file after).accepted = ((newCodes after (p.baseline.codes ++ p.allowed)).isEmpty &&
      (decide (p.targetDelta after < 0) ||
        decide (after.countInFile p.naming file ≤ p.baseline.countInFile p.naming file))) := rfl
  rw [← hnew, haccepted, Bool.and_eq_true, Bool.or_eq_true, List.isEmpty_iff, decide_eq_true_iff, decide_eq_true_iff]

theorem adds_of_judge {p : Policy} {file : Path} {after : Snapshot}
    (h : (p.judge file after).accepted) : Adds p.allowed p.baseline after := (judge_accepted_iff.1 h).1

end Policy

/-! ## Fewer diagnostics -/

namespace Snapshot

/-- What a verdict sees of a diagnostic: its code, and the place its file name stands for. -/
def reported (n : Naming) (d : Diagnostic) : Int × List String := (d.code, n.place (.ofString d.file))

variable {n : Naming} {s t : Snapshot}

theorem mem_codes_iff {code : Int} : code ∈ s.codes ↔ ∃ d ∈ s.diagnostics, d.code = code := by
  simp [codes]

theorem countInFile_eq (file : Path) : s.countInFile n file =
    (s.diagnostics.map (reported n)).countP fun r => r.2 == n.place file := by
  rw [countInFile, List.countP_map]
  rfl

theorem countMatching_eq (code : Int) (file : Path) : s.countMatching n code file =
    (s.diagnostics.map (reported n)).countP fun r => r.1 == code && r.2 == n.place file := by
  rw [countMatching, List.countP_map]
  rfl

/-- The codes of `s` at their places are some of those of `t`, each as often as it stands there. -/
def Fewer (n : Naming) (s t : Snapshot) : Prop :=
  (s.diagnostics.map (reported n)).Subperm (t.diagnostics.map (reported n))

theorem fewer_of_subperm (n : Naming) (h : s.diagnostics.Subperm t.diagnostics) : Fewer n s t := by
  obtain ⟨kept, hperm, hsub⟩ := h
  exact ⟨kept.map (reported n), hperm.map _, hsub.map _⟩

/-- The diagnostics of `t` are those of `s`, with other spellings of the file names, and with other texts. -/
def Respelled (n : Naming) (s t : Snapshot) : Prop :=
  List.Forall₂ (fun d e => reported n d = reported n e) s.diagnostics t.diagnostics

theorem Respelled.map_eq (h : Respelled n s t) :
    s.diagnostics.map (reported n) = t.diagnostics.map (reported n) := by
  rw [← List.forall₂_eq_eq_eq, List.forall₂_map_left_iff, List.forall₂_map_right_iff]
  exact h

theorem Fewer.respelled {u : Snapshot} (h : Fewer n s t) (hu : Respelled n s u) : Fewer n u t := by
  unfold Fewer at h ⊢
  rwa [← hu.map_eq]

theorem Fewer.countInFile_le (h : Fewer n s t) (file : Path) : s.countInFile n file ≤ t.countInFile n file := by
  rw [countInFile_eq, countInFile_eq]
  apply h.countP_le

theorem Fewer.countMatching_le (h : Fewer n s t) (code : Int) (file : Path) :
    s.countMatching n code file ≤ t.countMatching n code file := by
  rw [countMatching_eq, countMatching_eq]
  apply h.countP_le

theorem Fewer.count_le (h : Fewer n s t) : s.count ≤ t.count := by
  have hlen := h.length_le
  rwa [List.length_map, List.length_map] at hlen

theorem Fewer.codes_subset (h : Fewer n s t) : s.codes ⊆ t.codes := by
  intro code hcode
  obtain ⟨d, hd, rfl⟩ := mem_codes_iff.1 hcode
  obtain ⟨e, he, heq⟩ := List.mem_map.1 (h.subset (List.mem_map_of_mem hd))
  exact mem_codes_iff.2 ⟨e, he, congrArg Prod.fst heq⟩

end Snapshot

/-! ## Verdicts on fewer diagnostics -/

instance : IsPreorder Snapshot fun before after => (judgeBatch before after).accepted = true where
  refl before := judgeBatch_accepted_iff.2 ⟨Nat.le_refl _, refl_of (Adds []) before⟩
  trans s t u hst htu := by
    rw [judgeBatch_accepted_iff] at hst htu ⊢
    exact ⟨Nat.le_trans htu.1 hst.1, trans_of (Adds []) hst.2 htu.2⟩

theorem judgeBatch_accepted_of_fewer {n : Naming} {before after less : Snapshot} (h : less.Fewer n after)
    (haccepted : (judgeBatch before after).accepted) : (judgeBatch before less).accepted := by
  rw [judgeBatch_accepted_iff] at haccepted ⊢
  constructor
  · exact Nat.le_trans h.count_le haccepted.1
  · intro code hcode
    exact haccepted.2 code (h.codes_subset hcode)

namespace Policy

theorem targetDelta_le {p : Policy} {after less : Snapshot} (h : less.Fewer p.naming after) :
    p.targetDelta less ≤ p.targetDelta after := by
  unfold targetDelta
  split
  · exact Int.le_refl 0
  · next t _ =>
    have hcount := h.countMatching_le t.code (.ofString t.file)
    omega

theorem judge_accepted_of_fewer {p : Policy} {file : Path} {after less : Snapshot} {allowed : List Int}
    (h : less.Fewer p.naming after) (hallowed : p.allowed ⊆ allowed) (haccepted : (p.judge file after).accepted) :
    ({ p with allowed := allowed }.judge file less).accepted := by
  rw [judge_accepted_iff] at haccepted ⊢
  obtain ⟨hadds, hlocal⟩ := haccepted
  constructor
  · intro code hcode
    exact (hadds code (h.codes_subset hcode)).imp_right fun hm => hallowed hm
  · rcases hlocal with hdelta | hcount
    · exact .inl (Int.lt_of_le_of_lt (targetDelta_le h) hdelta)
    · exact .inr (Nat.le_trans (h.countInFile_le file) hcount)

end Policy

/-- Repairs never turn an acceptance into a rejection. Acceptance of a batch is reflexive and transitive, and a batch
that is kept would be kept with any part of the diagnostics it leaves. A file that is kept would be kept with any part
of them, however the files are spelled in it, and with more codes allowed. -/
theorem verdicts_monotone :
    IsPreorder Snapshot (fun before after => (judgeBatch before after).accepted = true) ∧
    (∀ before after less : Snapshot, less.diagnostics.Subperm after.diagnostics →
      (judgeBatch before after).accepted → (judgeBatch before less).accepted) ∧
    ∀ (p : Policy) (file : Path) (after less spelled : Snapshot) (allowed : List Int),
      less.diagnostics.Subperm after.diagnostics → less.Respelled p.naming spelled → p.allowed ⊆ allowed →
      (p.judge file after).accepted → ({ p with allowed := allowed }.judge file spelled).accepted := by
  refine ⟨inferInstance, ?_, ?_⟩
  · intro before after less hless
    exact judgeBatch_accepted_of_fewer (Snapshot.fewer_of_subperm ⟨[], none⟩ hless)
  · intro p file after less spelled allowed hless hspelled
    exact Policy.judge_accepted_of_fewer ((Snapshot.fewer_of_subperm p.naming hless).respelled hspelled)

theorem verdicts_monotone_sample :
    let near : Diagnostic := ⟨2307, "no module", "src/App.tsx", .zero, none⟩
    let far : Diagnostic := ⟨2307, "no module", "/proj/src/App.tsx", .zero, none⟩
    let other : Diagnostic := ⟨2304, "no name", "src/Menu.tsx", .zero, none⟩
    let p : Policy := ⟨⟨[near, near, other]⟩, some near, [], ⟨["home"], some (.ofString "/proj")⟩⟩
    (judgeBatch p.baseline ⟨[other, near]⟩).accepted ∧ (judgeBatch p.baseline ⟨[near]⟩).accepted ∧
      (p.judge (.ofString "src/App.tsx") ⟨[other, near]⟩).accepted ∧
      ({ p with allowed := [2305] }.judge (.ofString "src/App.tsx") ⟨[far]⟩).accepted := by
  intro near far other p
  have hless : [near].Subperm [other, near] := (List.sublist_cons_self other [near]).subperm
  have hbatch : (judgeBatch p.baseline ⟨[other, near]⟩).accepted := by decide +kernel
  have hfile : (p.judge (.ofString "src/App.tsx") ⟨[other, near]⟩).accepted := by decide +kernel
  have hspelled : Snapshot.Respelled p.naming ⟨[near]⟩ ⟨[far]⟩ := by
    refine .cons ?_ .nil
    decide +kernel
  obtain ⟨-, hbatches, hfiles⟩ := verdicts_monotone
  exact ⟨hbatch, hbatches _ _ ⟨[near]⟩ hless hbatch, hfile,
    hfiles p _ _ ⟨[near]⟩ _ [2305] hless hspelled (List.nil_subset _) hfile⟩

end Codemod
