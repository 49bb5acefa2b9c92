import Codemod.Plan.Apply
import Codemod.Proofs.Change.Batch
import Mathlib.Data.List.Nodup

/-! What a plan compiles to: changes of distinct files, each named by its place, made for the text that
the file holds, and altering it. -/
namespace Codemod

/-- The path leads down from the top, without a detour. -/
def Path.Direct (p : Path) : Prop := p.root = .slash ∧ ".." ∉ p.parts

theorem Path.Direct.ext {p q : Path} (hp : p.Direct) (hq : q.Direct) (h : p.parts = q.parts) :
    p = q := by
  obtain ⟨root, parts⟩ := p
  obtain ⟨root', parts'⟩ := q
  cases hp.1.trans hq.1.symm
  cases h
  rfl

theorem Path.stepInto_direct {at' : List String} (h : ".." ∉ at') (part : String) :
    ".." ∉ stepInto at' part := by
  unfold stepInto
  split
  · exact fun hm => h ((List.dropLast_sublist _).subset hm)
  · next hp => simp [h, Ne.symm hp]

/-- A path that is absolute resolves to a direct one, wherever it is seen from. -/
theorem Path.resolve_direct {p : Path} (h : p.isAbsolute) (cwd : List String) :
    (p.resolve cwd).Direct := by
  refine ⟨rfl, ?_⟩
  change ".." ∉ p.parts.foldl stepInto (if p.isAbsolute then [] else cwd)
  rw [if_pos h]
  suffices ∀ (parts at' : List String), ".." ∉ at' → ".." ∉ parts.foldl stepInto at' from
    this _ _ List.not_mem_nil
  intro parts
  induction parts with
  | nil => exact fun _ ha => ha
  | cons part parts ih => exact fun at' ha => ih _ (stepInto_direct ha part)

theorem Disk.walk_direct {d : Disk} {parts at' place : List String} (h : ".." ∉ parts)
    (hw : d.walk at' parts = .ok place) : place = at' ++ parts := by
  induction parts generalizing at' with
  | nil => cases hw; simp
  | cons part rest ih =>
    obtain ⟨hp, hr⟩ : part ≠ ".." ∧ ".." ∉ rest := by
      simpa [eq_comm] using h
    rw [walk, if_neg hp] at hw
    split at hw
    · next he =>
      cases hw
      simp [List.isEmpty_iff.1 he]
    · split at hw
      · contradiction
      · contradiction
      · rw [ih hr hw, List.append_assoc, List.singleton_append]

/-- A direct path leads to the place that its parts spell. -/
theorem Disk.locate_direct {d : Disk} {p : Path} {place : List String} (h : p.Direct)
    (hl : d.locate p = .ok place) : place = p.parts := by
  have ha : p.isAbsolute := by simp [Path.isAbsolute, h.1]
  rw [locate, if_pos ha] at hl
  simpa using walk_direct h.2 hl

namespace Change

/-- Changes of distinct files, each named by its place, that alter what they are made for. -/
structure Tidy (changes : List Change) : Prop where
  direct : ∀ c ∈ changes, c.file.Direct
  distinct : (changes.map (·.file)).Nodup
  differs : ∀ c ∈ changes, c.after ≠ c.before

theorem Tidy.sublist {some' all : List Change} (h : Tidy all) (hs : some'.Sublist all) :
    Tidy some' :=
  ⟨fun c hc => h.direct c (hs.subset hc), h.distinct.sublist (hs.map _),
    fun c hc => h.differs c (hs.subset hc)⟩

theorem Tidy.tail {c : Change} {changes : List Change} (h : Tidy (c :: changes)) : Tidy changes :=
  h.sublist (List.sublist_cons_self c changes)

theorem Tidy.file_ne {b c : Change} {changes : List Change} (h : Tidy (c :: changes))
    (hb : b ∈ changes) : b.file ≠ c.file := by
  intro he
  have hm : b.file ∈ changes.map (·.file) := List.mem_map_of_mem hb
  rw [he] at hm
  exact (List.nodup_cons.1 h.distinct).1 hm

/-- The files of some of the changes tell which changes they are. -/
theorem Tidy.filter_mem {some' all : List Change} (h : Tidy all) (hs : some'.Sublist all) :
    all.filter (·.file ∈ some'.map (·.file)) = some' := by
  induction hs with
  | slnil => rfl
  | @cons l l' c hs ih =>
    have hc : c.file ∉ l.map (·.file) := by
      intro hm
      obtain ⟨b, hb, he⟩ := List.mem_map.1 hm
      exact h.file_ne (hs.subset hb) he
    rw [List.filter_cons, if_neg (by simpa using hc), ih h.tail]
  | @cons_cons l l' c hs ih =>
    have hl : l'.filter (·.file ∈ (c :: l).map (·.file)) = l'.filter (·.file ∈ l.map (·.file)) := by
      apply List.filter_congr
      intro b hb
      simp [h.file_ne hb]
    rw [List.filter_cons, if_pos (by simp), hl, ih h.tail]

/-- Changes as they are compiled from a plan on a disk. -/
structure Compiled (d : Disk) (changes : List Change) : Prop extends Tidy changes where
  fits : ∀ c ∈ changes, c.Fits d

theorem Fits.fileAt_direct {c : Change} {d : Disk} (h : c.Fits d) (hd : c.file.Direct) :
    d.FileAt c.file c.file.parts c.before.toUTF8 := by
  have hf := h.fileAt
  rwa [Disk.locate_direct hd hf.locate] at hf

end Change

theorem nodup_eraseDups [DecidableEq α] (l : List α) : l.eraseDups.Nodup := by
  match l with
  | [] => simp
  | a :: l =>
    rw [List.eraseDups_cons, List.nodup_cons]
    refine ⟨?_, nodup_eraseDups (l.filter fun b => !b == a)⟩
    simp [List.mem_eraseDups]
termination_by l.length
decreasing_by exact Nat.lt_succ_of_le (List.length_filter_le _ _)

theorem changeOf?_eq_some {disk : Disk} {file : Path} {ops : List Op} {c : Change}
    (h : changeOf? disk file ops = some c) :
    c.file = file ∧ c.Fits disk ∧ c.after ≠ c.before := by
  obtain ⟨before, hb, h⟩ := Option.bind_eq_some_iff.1 h
  have hr : disk.readText file = .ok before := by
    unfold Disk.text? at hb
    cases hr : disk.readText file with
    | error e => simp [hr, Except.toOption] at hb
    | ok s =>
      rw [hr] at hb
      cases hb
      rfl
  dsimp only at h
  split at h
  · contradiction
  · next hne =>
    cases h
    exact ⟨rfl, hr, hne⟩

/-! # What a plan compiles to -/

/-- Steps that can fail in one way only all succeed, or that is how they fail. -/
theorem mapM_guarded {ε : Type} (bad : α → Prop) [DecidablePred bad] (f : α → β) (e : ε) (l : List α) :
    (l.mapM fun a => if bad a then .error e else .ok (f a) : Except ε (List β)) =
      if ∃ a ∈ l, bad a then .error e else .ok (l.map f) := by
  induction l with
  | nil => rfl
  | cons a l ih =>
    rw [List.mapM_cons, ih]
    by_cases ha : bad a
    · simp [ha, bind, Except.bind]
    · by_cases hl : ∃ b ∈ l, bad b <;> simp [ha, hl, bind, Except.bind, pure, Except.pure]

namespace Disk

/-- The directory that the names of a plan are read from. -/
def origin (d : Disk) (root : Option Path) : Option Path := root.map (·.resolve d.cwd)

/-- The file that a name in a plan stands for. -/
def named (d : Disk) (root : Option Path) (name : String) : Path := located d.cwd (d.origin root) name

theorem named_direct (d : Disk) (root : Path) (name : String) : (d.named (some root) name).Direct := by
  apply Path.resolve_direct
  unfold Path.join
  split
  · assumption
  · rfl

end Disk

namespace Plan

/-- The root and the files of a plan have names that files can have. -/
def Nameable (root : Option Path) (plan : Plan) : Prop :=
  (∀ r ∈ root, ∀ part ∈ r.parts, nul ∉ part.toList) ∧
    ∀ op ∈ plan.ops, ∀ name ∈ op.file?, nul ∉ name.toList

instance (root : Option Path) (plan : Plan) : Decidable (plan.Nameable root) :=
  inferInstanceAs (Decidable (_ ∧ _))

section
variable (disk : Disk) (root : Option Path) (plan : Plan)

/-- The operations of a plan that edit a file, in the order of the plan. -/
def opsOn (file : Path) : List Op :=
  plan.ops.filter fun op => op.file?.any fun name => disk.named root name == file

/-- The files that the operations of a plan edit, in the order of the plan. -/
def edited : List Path := plan.ops.filterMap fun op => op.file?.map (disk.named root)

/-- The operations of a plan with the files they edit. -/
def mentions : List (Path × Op) :=
  plan.ops.filterMap fun op => op.file?.map fun name => (disk.named root name, op)

end

variable {disk : Disk} {root : Option Path} {plan : Plan}

theorem map_fst_mentions : (plan.mentions disk root).map (·.1) = plan.edited disk root := by
  simp only [mentions, edited, List.map_filterMap, Option.map_map]
  rfl

theorem map_snd_mentions (file : Path) :
    ((plan.mentions disk root).filter (·.1 == file)).map (·.2) = plan.opsOn disk root file := by
  unfold mentions opsOn
  induction plan.ops with
  | nil => rfl
  | cons op ops ih =>
    cases h : op.file? with
    | none => simp [h, ih]
    | some name => by_cases hn : disk.named root name = file <;> simp [h, hn, ih]

theorem mapM_resolved (cwd : List String) (root : Option Path) : root.mapM (·.resolved cwd) =
    if ∀ r ∈ root, ∀ part ∈ r.parts, nul ∉ part.toList then .ok (root.map (·.resolve cwd))
    else .error .notAName := by
  cases root with
  | none => rfl
  | some r =>
    have hname : (r.parts.any (·.toList.contains nul)) = true ↔
        ¬ ∀ r' ∈ some r, ∀ part ∈ r'.parts, nul ∉ part.toList := by
      simp
    simp only [Option.mapM_some, Path.resolved, hname, ite_not]
    split <;> rfl

theorem edits_origin : plan.edits disk.cwd (disk.origin root) =
    if ∀ op ∈ plan.ops, ∀ name ∈ op.file?, nul ∉ name.toList then .ok (plan.mentions disk root)
    else .error .notAName := by
  have hstep : (fun e : String × Op => (operand disk.cwd (disk.origin root) e.1).map (·, e.2)) =
      fun e => if nul ∈ e.1.toList then .error .notAName else .ok (disk.named root e.1, e.2) := by
    funext e
    by_cases h : nul ∈ e.1.toList <;> simp [operand, h, Except.map, Disk.named]
  have hbad : (∃ e ∈ plan.ops.filterMap fun op => op.file?.map (·, op), nul ∈ e.1.toList) ↔
      ¬ ∀ op ∈ plan.ops, ∀ name ∈ op.file?, nul ∉ name.toList := by
    simp [List.mem_filterMap, ← exists_and_right, exists_comm (α := String), and_assoc]
  unfold edits
  rw [hstep, mapM_guarded]
  simp only [hbad, ite_not, List.map_filterMap, Option.map_map]
  rfl

/-- A plan whose names can be looked up compiles to the changes of its files, in the order in which they
are mentioned first; any other plan does not compile. -/
theorem compile_eq : plan.compile disk root =
    if plan.Nameable root then
      .ok ((plan.edited disk root).eraseDups.filterMap fun file =>
        changeOf? disk file (plan.opsOn disk root file))
    else .error .notAName := by
  unfold compile
  rw [mapM_resolved]
  by_cases hroot : ∀ r ∈ root, ∀ part ∈ r.parts, nul ∉ part.toList
  · rw [if_pos hroot]
    change (plan.edits disk.cwd (disk.origin root) >>= _) = _
    rw [edits_origin]
    by_cases hfiles : ∀ op ∈ plan.ops, ∀ name ∈ op.file?, nul ∉ name.toList
    · rw [if_pos hfiles, if_pos ⟨hroot, hfiles⟩, ← map_fst_mentions]
      simp only [← map_snd_mentions]
      rfl
    · rw [if_neg hfiles, if_neg fun h => hfiles h.2]
      rfl
  · rw [if_neg hroot, if_neg fun h => hroot h.1]
    rfl

theorem compile_eq_ok_iff {changes : List Change} : plan.compile disk root = .ok changes ↔
    plan.Nameable root ∧ changes = (plan.edited disk root).eraseDups.filterMap fun file =>
      changeOf? disk file (plan.opsOn disk root file) := by
  rw [compile_eq]
  by_cases h : plan.Nameable root <;> simp [h, eq_comm]

theorem Nameable.compiles (h : plan.Nameable root) (disk : Disk) :
    ∃ changes, plan.compile disk root = .ok changes :=
  ⟨_, compile_eq_ok_iff.2 ⟨h, rfl⟩⟩

theorem compile_eq_error_iff {m : Misfit} :
    plan.compile disk root = .error m ↔ m = .notAName ∧ ¬ plan.Nameable root := by
  rw [compile_eq]
  by_cases h : plan.Nameable root <;> simp [h, eq_comm]

theorem compile_compiled {root : Path} {changes : List Change}
    (h : plan.compile disk (some root) = .ok changes) : Change.Compiled disk changes := by
  obtain ⟨-, rfl⟩ := compile_eq_ok_iff.1 h
  have from' : ∀ c ∈ (plan.edited disk (some root)).eraseDups.filterMap fun file =>
      changeOf? disk file (plan.opsOn disk (some root) file),
      c.file ∈ plan.edited disk (some root) ∧ ∃ ops, changeOf? disk c.file ops = some c := by
    intro c hc
    obtain ⟨file, hf, h⟩ := List.mem_filterMap.1 hc
    rw [(changeOf?_eq_some h).1]
    exact ⟨List.mem_eraseDups.1 hf, _, h⟩
  refine ⟨⟨?_, ?_, ?_⟩, ?_⟩
  · intro c hc
    obtain ⟨op, -, hop⟩ := List.mem_filterMap.1 (from' c hc).1
    obtain ⟨name, -, hname⟩ := Option.map_eq_some_iff.1 hop
    exact hname ▸ disk.named_direct root name
  · rw [List.map_filterMap]
    refine (nodup_eraseDups _).filterMap fun a b file ha hb => ?_
    obtain ⟨c, hc, rfl⟩ := Option.map_eq_some_iff.1 ha
    obtain ⟨c', hc', hf⟩ := Option.map_eq_some_iff.1 hb
    rw [← (changeOf?_eq_some hc).1, ← (changeOf?_eq_some hc').1, hf]
  · intro c hc
    obtain ⟨ops, h⟩ := (from' c hc).2
    exact (changeOf?_eq_some h).2.2
  · intro c hc
    obtain ⟨ops, h⟩ := (from' c hc).2
    exact (changeOf?_eq_some h).2.1

end Plan
end Codemod
