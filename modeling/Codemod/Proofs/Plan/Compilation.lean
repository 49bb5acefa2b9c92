import Codemod.Proofs.Plan.Compile
import Codemod.Proofs.Source.Braces
import Mathlib.Data.List.Sort

/-! A plan compiles file by file: what becomes of a file is told by the operations that name it, and
the order of the changes by where each file is named first. Plans that do the same to every file
compile to the same changes, however their operations are interleaved. Only a name that no file can
have keeps a plan from compiling. -/
namespace Codemod

/-! ## Names of one file -/

theorem Text.pieces_append_cons {sep : Char → Bool} {c : Char} (hc : sep c = true)
    (before after : List Char) :
    pieces sep (before ++ c :: after) = pieces sep before ++ pieces sep after := by
  induction before with
  | nil => exact Source.pieces_sep hc after
  | cons d before ih =>
    obtain ⟨piece, rest, h⟩ := List.exists_cons_of_ne_nil (Source.pieces_ne_nil sep before)
    simp only [List.cons_append, pieces, ih, h]
    split <;> rfl

namespace Path

/-- The name of a path that is read from where one stands. -/
def IsRelative (name : String) : Prop := name.toList.head? ≠ some '/'

/-- A name for an entry of a directory, other than the two that stand for itself and for what is
above it. -/
structure IsPart (name : String) : Prop where
  ne_empty : name ≠ ""
  ne_dot : name ≠ "."
  ne_dots : name ≠ ".."
  slashless : '/' ∉ name.toList

theorem ofString_isAbsolute_iff {name : String} :
    (ofString name).isAbsolute = true ↔ ¬ IsRelative name := by
  unfold ofString isAbsolute IsRelative
  cases hcs : name.toList with
  | nil => simp
  | cons c cs =>
    by_cases hc : c = '/'
    · subst hc
      simp only [List.takeWhile_cons, beq_self_eq_true, if_true, List.length_cons]
      split <;> simp_all
    · simp [hc]

theorem parts_ofString_append (dir name : String) :
    (ofString (dir ++ "/" ++ name)).parts = (ofString dir).parts ++ (ofString name).parts := by
  have h : (dir ++ "/" ++ name).toList = dir.toList ++ '/' :: name.toList := by simp
  simp only [ofString, h]
  rw [Text.pieces_append_cons (by rfl), List.map_append, List.filter_append]

theorem IsPart.parts_ofString {part : String} (h : IsPart part) : (ofString part).parts = [part] := by
  have one : Text.pieces (· == '/') part.toList = [part.toList] :=
    Source.pieces_eq_singleton fun c hc => by
      simpa using fun he : c = '/' => h.slashless (he ▸ hc)
  simp [ofString, one, h.ne_empty, h.ne_dot]

theorem foldl_stepInto_of_notMem {parts : List String} (h : ".." ∉ parts) (at' : List String) :
    parts.foldl stepInto at' = at' ++ parts := by
  induction parts generalizing at' with
  | nil => simp
  | cons part parts ih =>
    rw [List.mem_cons, not_or] at h
    rw [List.foldl_cons, ih h.2, stepInto, if_neg (Ne.symm h.1), List.append_assoc,
      List.singleton_append]

theorem resolveParts_of_isAbsolute {p : Path} (h : p.isAbsolute) (cwd : List String) :
    p.resolveParts cwd = p.parts.foldl stepInto [] := by
  rw [resolveParts, if_pos h]

theorem resolveParts_resolve {p : Path} (h : p.isAbsolute) (cwd : List String) :
    (p.resolve cwd).resolveParts cwd = p.resolveParts cwd := by
  rw [resolveParts_of_isAbsolute (resolve_isAbsolute cwd p),
    foldl_stepInto_of_notMem (resolve_direct h cwd).2, List.nil_append]
  rfl

end Path

namespace Disk

/-- A relative name leads on from where the names of the plan are read. -/
theorem named_of_relative {name : String} (h : Path.IsRelative name) (d : Disk)
    (root : Option Path) :
    d.named root name = .absolute ((Path.ofString name).parts.foldl Path.stepInto
      (((d.origin root).map (·.resolveParts d.cwd)).getD d.cwd)) := by
  have hrel : (Path.ofString name).isAbsolute = false := by
    simpa using mt Path.ofString_isAbsolute_iff.1 (not_not.2 h)
  cases root with
  | none => simp [named, origin, located, Path.resolve, Path.resolveParts, hrel]
  | some r =>
    simp only [named, origin, located, Option.map_some, Option.getD_some, Path.join, hrel]
    simp [Path.resolve, Path.resolveParts, Path.absolute, Path.isAbsolute, List.foldl_append]

theorem named_of_not_relative {name : String} (h : ¬ Path.IsRelative name) (d : Disk)
    (root : Option Path) :
    d.named root name = .absolute ((Path.ofString name).parts.foldl Path.stepInto []) := by
  have habs := Path.ofString_isAbsolute_iff.2 h
  rw [← Path.resolveParts_of_isAbsolute habs d.cwd]
  cases root with
  | none => rfl
  | some r => simp [named, origin, located, Path.join, habs, Path.resolve]

/-- A name relative to an absolute root is one with the name it has from the top. -/
theorem named_absolute {dir name : String} (hd : ¬ Path.IsRelative dir) (hn : Path.IsRelative name)
    (d : Disk) :
    d.named (some (.ofString dir)) (dir ++ "/" ++ name) = d.named (some (.ofString dir)) name := by
  have hdir := Path.ofString_isAbsolute_iff.2 hd
  have habs : ¬ Path.IsRelative (dir ++ "/" ++ name) := by
    unfold Path.IsRelative at hd ⊢
    cases h : dir.toList <;> simp_all
  rw [named_of_relative hn, named_of_not_relative habs, Path.parts_ofString_append,
    List.foldl_append, ← Path.resolveParts_of_isAbsolute hdir d.cwd,
    ← Path.resolveParts_resolve hdir d.cwd]
  rfl

/-- A step into a directory and back leads nowhere else. -/
theorem named_detour {part name : String} (hp : Path.IsPart part) (hn : Path.IsRelative name)
    (d : Disk) (root : Option Path) :
    d.named root (part ++ "/../" ++ name) = d.named root name := by
  have hrel : Path.IsRelative (part ++ "/../" ++ name) := by
    have hpart : part.toList ≠ [] := by simpa using hp.ne_empty
    obtain ⟨c, cs, hcs⟩ := List.exists_cons_of_ne_nil hpart
    have hc : c ≠ '/' := fun h => hp.slashless (by simp [hcs, h])
    simp [Path.IsRelative, hcs, hc]
  have hparts : (Path.ofString (part ++ "/../" ++ name)).parts =
      part :: ".." :: (Path.ofString name).parts := by
    have : part ++ "/../" ++ name = part ++ "/" ++ (".." ++ "/" ++ name) := by
      rw [← String.toList_inj]
      simp
    rw [this, Path.parts_ofString_append, Path.parts_ofString_append, hp.parts_ofString]
    rfl
  rw [named_of_relative hrel, named_of_relative hn, hparts]
  simp [Path.stepInto, hp.ne_dots]

end Disk

/-! ## File by file -/

namespace Plan
variable (disk : Disk) (root : Option Path) (plan : Plan)

/-- What compiling a plan comes to. There is a change for each file whose text can be read and is
altered by the operations on it, one after the other, and the file named first comes first. -/
structure Compilation (changes : List Change) : Prop where
  change : ∀ c, c ∈ changes ↔ disk.readText c.file = .ok c.before ∧
    c.after = String.ofList (applyOps c.before.toList (plan.opsOn disk root c.file)) ∧
    c.after ≠ c.before
  order : changes.Pairwise fun a b =>
    (plan.edited disk root).idxOf a.file < (plan.edited disk root).idxOf b.file

end Plan

theorem changeOf?_eq_some_iff {disk : Disk} {file : Path} {ops : List Op} {c : Change} :
    changeOf? disk file ops = some c ↔ c.file = file ∧ disk.readText file = .ok c.before ∧
      c.after = String.ofList (applyOps c.before.toList ops) ∧ c.after ≠ c.before := by
  constructor
  · intro h
    obtain ⟨hfile, hfits, hne⟩ := changeOf?_eq_some h
    refine ⟨hfile, hfile ▸ hfits, ?_, hne⟩
    obtain ⟨before, -, h⟩ := Option.bind_eq_some_iff.1 h
    dsimp only at h
    split at h
    · contradiction
    · cases h
      rfl
  · rintro ⟨rfl, hread, hafter, hne⟩
    have htext : disk.text? c.file = some c.before := by rw [Disk.text?, hread]; rfl
    rw [changeOf?, htext, Option.bind_some]
    dsimp only
    rw [← hafter, if_neg hne]

/-- Entries stand in the order in which they are met first. -/
theorem pairwise_idxOf_eraseDups [DecidableEq α] (l : List α) :
    l.eraseDups.Pairwise fun a b => l.idxOf a < l.idxOf b := by
  induction l using List.reverseRecOn with
  | nil => simp
  | append_singleton l c ih =>
    have hold {a : α} (ha : a ∈ l) : (l ++ [c]).idxOf a = l.idxOf a := by
      rw [List.idxOf_append, if_pos ha]
    have hlast : ([c].removeAll l).eraseDups = if c ∈ l then [] else [c] := by
      by_cases hc : c ∈ l <;> simp [List.removeAll, hc, List.eraseDups_cons]
    rw [List.eraseDups_append, hlast, List.pairwise_append]
    refine ⟨?_, by split <;> simp, ?_⟩
    · refine ih.imp_of_mem fun ha hb hab => ?_
      rwa [hold (List.mem_eraseDups.1 ha), hold (List.mem_eraseDups.1 hb)]
    · intro a ha b hb
      have ha := List.mem_eraseDups.1 ha
      split at hb
      · cases hb
      · next hc =>
        rw [List.mem_singleton.1 hb, hold ha, List.idxOf_append, if_neg hc]
        exact Nat.lt_add_left _ (List.idxOf_lt_length_of_mem ha)

namespace Plan
variable {disk : Disk} {root : Option Path} {plan : Plan}

/-- A file that no operation names is not altered. -/
theorem mem_edited_of_opsOn_ne_nil {file : Path} (h : plan.opsOn disk root file ≠ []) :
    file ∈ plan.edited disk root := by
  obtain ⟨op, hop⟩ := List.exists_mem_of_ne_nil _ h
  obtain ⟨hm, hf⟩ := List.mem_filter.1 hop
  obtain ⟨name, hname, he⟩ := (Option.any_eq_true _ _).1 hf
  exact List.mem_filterMap.2 ⟨op, hm, by simp [hname, beq_iff_eq.1 he]⟩

theorem mem_of_compile {changes : List Change} (h : plan.compile disk root = .ok changes)
    (c : Change) : c ∈ changes ↔ disk.readText c.file = .ok c.before ∧
      c.after = String.ofList (applyOps c.before.toList (plan.opsOn disk root c.file)) ∧
      c.after ≠ c.before := by
  obtain ⟨-, rfl⟩ := compile_eq_ok_iff.1 h
  rw [List.mem_filterMap]
  constructor
  · rintro ⟨file, -, h⟩
    obtain ⟨rfl, h⟩ := changeOf?_eq_some_iff.1 h
    exact h
  · intro h
    refine ⟨c.file, List.mem_eraseDups.2 (mem_edited_of_opsOn_ne_nil fun hnil => ?_),
      changeOf?_eq_some_iff.2 ⟨rfl, h⟩⟩
    rw [hnil] at h
    exact h.2.2 (h.2.1.trans (by simp [applyOps]))

theorem compilation_of_compile {changes : List Change} (h : plan.compile disk root = .ok changes) :
    plan.Compilation disk root changes where
  change := mem_of_compile h
  order := by
    obtain ⟨-, rfl⟩ := compile_eq_ok_iff.1 h
    rw [List.pairwise_filterMap]
    refine (pairwise_idxOf_eraseDups (plan.edited disk root)).imp fun {a b} hab c hc d hd => ?_
    rw [(changeOf?_eq_some hc).1, (changeOf?_eq_some hd).1]
    exact hab

theorem Compilation.nodup {changes : List Change} (h : plan.Compilation disk root changes) :
    changes.Nodup :=
  h.order.imp fun hab he => by simp [he] at hab

theorem Compilation.unique {changes changes' : List Change}
    (h : plan.Compilation disk root changes) (h' : plan.Compilation disk root changes') :
    changes = changes' := by
  have hperm : changes.Perm changes' :=
    (List.perm_ext_iff_of_nodup h.nodup h'.nodup).2 fun c => (h.change c).trans (h'.change c).symm
  exact hperm.eq_of_pairwise (fun _ _ _ _ hab hba => absurd hba (by omega)) h.order h'.order

/-- Plans that do the same to each file have the same names. -/
theorem Nameable.of_opsOn {other : Plan}
    (h : ∀ file, other.opsOn disk root file = plan.opsOn disk root file)
    (hn : plan.Nameable root) : other.Nameable root := by
  refine ⟨hn.1, fun op hop name hname => hn.2 op ?_ name hname⟩
  have hon : op ∈ other.opsOn disk root (disk.named root name) :=
    List.mem_filter.2 ⟨hop, by simp [Option.mem_def.1 hname]⟩
  exact List.mem_of_mem_filter (h _ ▸ hon)

/-- Plans that do the same to each file compile to the same changes. -/
theorem compile_perm {other : Plan} {changes : List Change}
    (h : ∀ file, other.opsOn disk root file = plan.opsOn disk root file)
    (hc : plan.compile disk root = .ok changes) :
    ∃ changes', other.compile disk root = .ok changes' ∧ changes'.Perm changes := by
  obtain ⟨changes', hother⟩ := ((compile_eq_ok_iff.1 hc).1.of_opsOn h).compiles disk
  refine ⟨changes', hother, (List.perm_ext_iff_of_nodup (compilation_of_compile hother).nodup
    (compilation_of_compile hc).nodup).2 fun c => ?_⟩
  rw [mem_of_compile hother, mem_of_compile hc, h]

/-- A plan compiles to the changes that its operations make to each file on their own, and to nothing
else, unless it has a name that no file can have; such a plan does not compile, though no file of that
name is there. The order of operations on different files does not matter, and a file counts as one under
all of its names: from the root, from the top, and by way of a directory that is left again. -/
theorem compile_by_file (disk : Disk) (root : Option Path) (plan : Plan) :
    (∀ changes, plan.compile disk root = .ok changes ↔
      plan.Nameable root ∧ plan.Compilation disk root changes) ∧
    (∀ m, plan.compile disk root = .error m ↔ m = .notAName ∧ ¬ plan.Nameable root) ∧
    (∀ other : Plan, (∀ file, other.opsOn disk root file = plan.opsOn disk root file) →
      ∀ changes, plan.compile disk root = .ok changes →
        ∃ changes', other.compile disk root = .ok changes' ∧ changes'.Perm changes) ∧
    ∀ name, Path.IsRelative name →
      (∀ dir, ¬ Path.IsRelative dir → root = some (.ofString dir) →
        disk.named root (dir ++ "/" ++ name) = disk.named root name) ∧
      ∀ part, Path.IsPart part → disk.named root (part ++ "/../" ++ name) = disk.named root name := by
  refine ⟨fun changes => ⟨fun h => ⟨(compile_eq_ok_iff.1 h).1, compilation_of_compile h⟩, ?_⟩,
    fun m => compile_eq_error_iff, fun other h changes hc => compile_perm h hc,
    fun name hname => ⟨?_, fun part hpart => Disk.named_detour hpart hname disk root⟩⟩
  · rintro ⟨hn, h⟩
    obtain ⟨_, hc⟩ := hn.compiles disk
    rw [hc, (compilation_of_compile hc).unique h]
  · rintro dir hdir rfl
    exact Disk.named_absolute hdir hname disk

end Plan

namespace Plan.Sample

def disk : Disk :=
  ⟨["w"], [(["w"], .directory), (["w", "p"], .directory),
    (["w", "p", "a"], .file "<A />".toUTF8), (["w", "p", "b"], .file "<A />".toUTF8),
    (["w", "p", "c"], .file ⟨#[255]⟩)]⟩

def root : Option Path := some (.ofString "/w/p")

/-- Two files that are edited in turn, with mentions of files that come to nothing. -/
def interleaved : Plan :=
  ⟨[], [.renameElement "b" "A" "B", .renameElement "/w/p/a" "A" "B", .renameElement "c" "A" "B",
    .renameElement "x/../b" "B" "C", .formatFiles ["a"]], [], 0.5⟩

def grouped : Plan :=
  ⟨[], [.renameElement "/w/p/a" "A" "B", .renameElement "b" "A" "B", .renameElement "c" "A" "B",
    .renameElement "x/../b" "B" "C"], [], 0.5⟩

def nameless : Plan := ⟨[], [.renameElement "b" "A" "B", .renameElement "x\x00" "A" "B"], [], 0.5⟩

end Plan.Sample

open Plan.Sample in
/-- A file that is missing or holds no text comes to nothing, unless it is one that cannot be there. -/
theorem Plan.compile_by_file_sample :
    (∀ file, grouped.opsOn disk root file = interleaved.opsOn disk root file) ∧
    (∃ changes, interleaved.compile disk root = .ok changes ∧ changes =
      [⟨.absolute ["w", "p", "b"], "<A />", "<C />"⟩, ⟨.absolute ["w", "p", "a"], "<A />", "<B />"⟩] ∧
      ∃ changes', grouped.compile disk root = .ok changes' ∧ changes'.Perm changes) ∧
    disk.text? (disk.named root "x\x00") = none ∧
    nameless.compile disk root = .error .notAName := by
  have same (file : Path) : grouped.opsOn disk root file = interleaved.opsOn disk root file := by
    have ha : disk.named root "/w/p/a" = .absolute ["w", "p", "a"] := by decide +kernel
    have hb : disk.named root "b" = .absolute ["w", "p", "b"] := by decide +kernel
    have hx : disk.named root "x/../b" = .absolute ["w", "p", "b"] := by decide +kernel
    have hc : disk.named root "c" = .absolute ["w", "p", "c"] := by decide +kernel
    by_cases h : file = .absolute ["w", "p", "a"]
    · subst h
      simp [opsOn, grouped, interleaved, Op.file?, ha, hb, hx, hc, Path.absolute]
    · simp [opsOn, grouped, interleaved, Op.file?, List.filter_cons, ha, Ne.symm h]
  have hok : interleaved.compile disk root = .ok [⟨.absolute ["w", "p", "b"], "<A />", "<C />"⟩,
      ⟨.absolute ["w", "p", "a"], "<A />", "<B />"⟩] := by
    decide +kernel
  have hnameless : ¬ nameless.Nameable root := by decide +kernel
  exact ⟨same, ⟨_, hok, rfl, (compile_by_file disk root interleaved).2.2.1 grouped same _ hok⟩,
    by decide +kernel, ((compile_by_file disk root nameless).2.1 _).2 ⟨rfl, hnameless⟩⟩

end Codemod
