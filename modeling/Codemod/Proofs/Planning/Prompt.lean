import Codemod.Planning.Model
import Codemod.Proofs.Plan.Compile
import Mathlib.Data.List.Forall2
import Mathlib.Data.List.Infix

/-! What a prompt shows of the files that its diagnostics name. The context of a step reads a relative name
from the project root, and the prompt reads it from the working directory: the two show the same text,
whatever the files hold, when the name is absolute or the root is the working directory, and only then. -/
namespace Codemod
open Text

/-! ## Paths that go on from a directory -/

namespace Disk
variable {d : Disk}

/-- Every directory on the way to a place is there, the last one included. -/
def Houses (d : Disk) (place : List String) : Prop :=
  ∀ front, front ≠ [] → front <+: place → d.node? front = some .directory

/-- The path is a name of the directory at a place: what follows it leads on from there. -/
def IsAt (d : Disk) (p : Path) (place : List String) : Prop :=
  ∀ rest, d.walk (if p.isAbsolute then [] else d.cwd) (p.parts ++ rest) = d.walk place rest

theorem walk_append {at' place : List String} (hdots : ".." ∉ place)
    (h : ∀ front, front ≠ [] → front <+: place → d.node? (at' ++ front) = some .directory)
    (rest : List String) : d.walk at' (place ++ rest) = d.walk (at' ++ place) rest := by
  induction place generalizing at' with
  | nil => simp
  | cons part place ih =>
    rw [List.mem_cons, not_or] at hdots
    have hnext : d.walk (at' ++ [part]) (place ++ rest) = d.walk (at' ++ part :: place) rest := by
      rw [ih hdots.2, List.append_assoc, List.singleton_append]
      intro front hne hfront
      rw [List.append_assoc, List.singleton_append]
      exact h _ (List.cons_ne_nil _ _) (List.cons_prefix_cons.2 ⟨rfl, hfront⟩)
    rw [List.cons_append, walk, if_neg (Ne.symm hdots.1)]
    split
    · next hempty =>
      obtain ⟨rfl, rfl⟩ := List.append_eq_nil_iff.1 (List.isEmpty_iff.1 hempty)
      rfl
    · rw [h [part] (List.cons_ne_nil _ _) (List.cons_prefix_cons.2 ⟨rfl, List.nil_prefix⟩)]
      exact hnext

/-- A direct path to a directory that is there is a name of it. -/
theorem Houses.isAt {place : List String} (h : d.Houses place) (hdots : ".." ∉ place) :
    d.IsAt (.absolute place) place :=
  @walk_append d [] place hdots h

theorem text?_congr {p q : Path} (h : d.locate p = d.locate q) : d.text? p = d.text? q := by
  simp only [text?, readText, readBytes, stat, h]

/-- A relative path read from a directory leads on from where the directory is. -/
theorem IsAt.locate_join {root p : Path} {place : List String} (h : d.IsAt root place)
    (hp : p.isAbsolute = false) : d.locate (root.join p) = d.walk place p.parts := by
  rw [Path.join, if_neg (by simp [hp])]
  exact h p.parts

theorem IsAt.text?_join {root p : Path} (h : d.IsAt root d.cwd) :
    d.text? (root.join p) = d.text? p := by
  cases hp : p.isAbsolute with
  | true => rw [Path.join, if_pos hp]
  | false =>
    refine text?_congr ((h.locate_join hp).trans ?_)
    rw [locate, if_neg (by simp [hp])]

/-! ## A disk with one file -/

/-- The file at a place, and all directories on the way to it and to some places. -/
def holding (cwd file : List String) (text : String) (places : List (List String)) : Disk :=
  ⟨cwd, (file, .file text.toUTF8) ::
    ((file.dropLast :: places).flatMap List.inits).map fun place => (place, .directory)⟩

section
variable {cwd file place : List String} {text : String} {places : List (List String)}

theorem node?_holding (hplace : place ≠ []) :
    (holding cwd file text places).node? place =
      if place = file then some (.file text.toUTF8)
      else if ∃ p ∈ file.dropLast :: places, place <+: p then some .directory else none := by
  have hdirectories (all : List (List String)) :
      ((all.map fun p => (p, Node.directory)).find? (·.1 == place)).map (·.2) =
        if place ∈ all then some .directory else none := by
    induction all with
    | nil => rfl
    | cons p all ih =>
      by_cases hp : p = place
      · simp [hp]
      · simpa [hp, Ne.symm hp] using ih
  have hmem : place ∈ (file.dropLast :: places).flatMap List.inits ↔
      ∃ p ∈ file.dropLast :: places, place <+: p := by
    simp [List.mem_flatMap, List.mem_inits]
  rw [node?, if_neg (by simpa using hplace), holding, List.find?_cons]
  by_cases hfile : file = place
  · simp [hfile]
  · rw [if_neg (Ne.symm hfile), show (file == place) = false by simpa using hfile]
    exact (hdirectories _).trans (if_congr hmem rfl rfl)

theorem houses_holding (hmem : place ∈ places) (hfile : ¬ file <+: place) :
    (holding cwd file text places).Houses place := by
  intro front hne hfront
  rw [node?_holding hne, if_neg (by rintro rfl; exact hfile hfront),
    if_pos ⟨place, List.mem_cons_of_mem _ hmem, hfront⟩]

theorem text?_holding {p : Path} (hne : file ≠ [])
    (h : (holding cwd file text places).locate p = .ok file) :
    (holding cwd file text places).text? p = some text := by
  have hnode : (holding cwd file text places).node? file = some (.file text.toUTF8) := by
    rw [node?_holding hne, if_pos rfl]
  rw [Disk.text?, readText_eq_ok_iff.2 ⟨file, h, hnode⟩]
  rfl

/-- Only the file has text. -/
theorem text?_holding_eq_none {p : Path}
    (h : ∀ q, (holding cwd file text places).locate p = .ok q → q ≠ file) :
    (holding cwd file text places).text? p = none := by
  simp only [text?, readText, readBytes, stat]
  cases hl : (holding cwd file text places).locate p with
  | error e => rfl
  | ok q =>
    have hnode : ∀ bytes, (holding cwd file text places).node? q ≠ some (.file bytes) := by
      intro bytes hq
      rw [node?_holding (by rintro rfl; simp [node?] at hq), if_neg (h q hl)] at hq
      split at hq <;> cases hq
    simp only [Except.bind]
    cases hq : (holding cwd file text places).node? q with
    | none => rfl
    | some n =>
      cases n with
      | file bytes => exact absurd hq (hnode bytes)
      | directory => rfl

end

end Disk

/-- A name that leads down from where one stands. -/
structure Path.Plain (p : Path) : Prop where
  relative : p.isAbsolute = false
  parts_ne_nil : p.parts ≠ []
  dots : ".." ∉ p.parts

namespace Disk

/-- A file that a plain name leads to from one directory is not the one it leads to from another. -/
theorem exists_text_from {here there : List String} {p : Path} (hp : p.Plain) (hne : here ≠ there)
    (hfile : ¬ here ++ p.parts <+: there) (cwd : List String) :
    ∃ disk : Disk, disk.cwd = cwd ∧ disk.Houses here ∧ disk.Houses there ∧
      (∀ q, disk.locate q = disk.walk here p.parts → disk.text? q = some "x") ∧
      ∀ q, disk.locate q = disk.walk there p.parts → disk.text? q = none := by
  obtain ⟨parts, last, hparts⟩ := (List.eq_nil_or_concat' p.parts).resolve_left hp.parts_ne_nil
  have hdots := hp.dots
  rw [hparts, List.mem_append, List.mem_singleton, not_or] at hdots
  have hlong : ¬ here ++ p.parts <+: here := fun h => by
    have := h.length_le
    simp only [hparts, List.length_append, List.length_singleton] at this
    omega
  refine ⟨holding cwd (here ++ p.parts) "x" [here, there], rfl, houses_holding (by simp) hlong,
    houses_holding (by simp) hfile, fun q hq => text?_holding (by simp [hparts]) ?_,
    fun q hq => text?_holding_eq_none fun place hplace => ?_⟩
  · have hway : ∀ front, front ≠ [] → front <+: parts →
        (holding cwd (here ++ p.parts) "x" [here, there]).node? (here ++ front) = some .directory := by
      intro front hne hfront
      have hshort : here ++ front ≠ here ++ p.parts := fun he => by
        have := hfront.length_le
        simp only [List.append_cancel_left he, hparts, List.length_append, List.length_singleton] at this
        omega
      rw [node?_holding (by simp [hne]), if_neg hshort, if_pos]
      refine ⟨_, List.mem_cons_self, ?_⟩
      rw [hparts, ← List.append_assoc, List.dropLast_concat]
      exact (List.prefix_append_right_inj here).2 hfront
    rw [hq, hparts, walk_append hdots.1 (by simpa only [hparts] using hway), walk, if_neg (Ne.symm hdots.2)]
    simp
  · rw [hq] at hplace
    rw [walk_direct hp.dots hplace]
    exact fun he => hne (List.append_cancel_right he).symm

end Disk

/-! ## The prompt -/

/-- The text within some characters of a span; nothing of a file that has no text. -/
def within (radius : Nat) (s : Span) (text? : Option String) : String :=
  String.ofList (((text?.getD "").toList.take (s.stop + radius)).drop (s.start - radius))

/-- The first characters of a text. -/
def firstChars (count : Nat) (text? : Option String) : String :=
  String.ofList ((text?.getD "").toList.take count)

theorem readExcerpt_eq (disk : Disk) (file : Path) (s : Span) (radius : Nat) :
    readExcerpt disk file (some s) radius = within radius s (disk.text? file) := by
  unfold readExcerpt within
  cases disk.text? file with
  | none => simp
  | some text =>
    have hlow : clampOffset text.toList.length (max 0 ((s.start : Int) - radius)) =
        min (s.start - radius) text.toList.length := by
      unfold clampOffset
      split <;> omega
    have hhigh : clampOffset text.toList.length (min text.toList.length ((s.stop : Int) + radius)) =
        min (s.stop + radius) text.toList.length := by
      unfold clampOffset
      split <;> omega
    simp only [slice, between, hlow, hhigh, Option.getD_some]
    rw [← List.drop_take, ← List.take_eq_take_min]
    obtain h | h := Nat.le_total (s.start - radius) text.toList.length
    · rw [Nat.min_eq_left h]
    · have hall {n : Nat} (hn : text.toList.length ≤ n) :
          (text.toList.take (s.stop + radius)).drop n = [] :=
        List.drop_eq_nil_of_le ((List.length_take_le' _ _).trans hn)
      rw [Nat.min_eq_right h, hall (Nat.le_refl _), hall h]

theorem readHead_eq (disk : Disk) (file : Path) (limit : Nat) :
    readHead disk file limit = firstChars limit (disk.text? file) := by
  unfold readHead firstChars
  cases disk.text? file with
  | none => simp
  | some text =>
    have hhigh : clampOffset text.toList.length (limit : Int) = min limit text.toList.length := by
      unfold clampOffset
      split <;> omega
    have hlow : clampOffset text.toList.length 0 = 0 := by simp [clampOffset]
    simp only [slice, between, hlow, hhigh, Option.getD_some, Nat.sub_zero, List.drop_zero]
    rw [← List.take_eq_take_min]

/-- What the file of a diagnostic in the project holds, if it can be read. -/
def Context.textOf? (c : Context) (disk : Disk) (d : Diagnostic) : Option String :=
  disk.text? (c.projectRoot.join (.ofString d.file))

/-- The name of a file leads to one file from the working directory and from the project root. -/
def Context.Agrees (c : Context) (disk : Disk) (d : Diagnostic) : Prop :=
  (Path.ofString d.file).isAbsolute ∨ disk.IsAt c.projectRoot disk.cwd

theorem Context.Agrees.text?_eq {c : Context} {disk : Disk} {d : Diagnostic} (h : c.Agrees disk d) :
    disk.text? (.ofString d.file) = c.textOf? disk d := by
  obtain h | h := h
  · rw [textOf?, Path.join, if_pos h]
  · exact h.text?_join.symm

namespace ModelPlanner

/-- What a prompt says about its diagnostics. -/
def shown (prompt : Json) : List Json :=
  match prompt.field? "diagnostics" with
  | some (.arr entries) => entries
  | _ => []

/-- An entry shows a text: the part of it around the span, and its head. -/
structure Shows (text? : Diagnostic → Option String) (d : Diagnostic) (entry : Json) : Prop where
  snippet : entry.field? "snippet" = some (.str (within 400 d.span (text? d)))
  head : entry.field? "importsHead" = some (.str (firstChars 800 (text? d)))

section
variable {disk : Disk} {c : Context}

theorem shown_contextJson :
    shown (contextJson disk c) = (c.diagnostics.take maxDiagnostics).map (diagnosticJson disk) := rfl

/-- An entry shows what the name leads to from the working directory. -/
theorem shows_diagnosticJson (d : Diagnostic) :
    Shows (fun d => disk.text? (.ofString d.file)) d (diagnosticJson disk d) where
  snippet := by
    rw [← readExcerpt_eq]
    rfl
  head := by
    rw [← readHead_eq]
    rfl

theorem Shows.of_eq {text? other? : Diagnostic → Option String} {d : Diagnostic} {entry : Json}
    (h : Shows text? d entry) (he : text? d = other? d) : Shows other? d entry :=
  ⟨he ▸ h.snippet, he ▸ h.head⟩

theorem forall₂_shown_iff {R : Diagnostic → Json → Prop} :
    List.Forall₂ R (c.diagnostics.take maxDiagnostics) (shown (contextJson disk c)) ↔
      ∀ d ∈ c.diagnostics.take maxDiagnostics, R d (diagnosticJson disk d) := by
  rw [shown_contextJson, List.forall₂_map_right_iff, List.forall₂_same]

theorem Shows.head_eq {text? other? : Diagnostic → Option String} {d : Diagnostic} {entry : Json}
    (h : Shows text? d entry) (h' : Shows other? d entry) :
    firstChars 800 (text? d) = firstChars 800 (other? d) :=
  Json.str.inj (Option.some.inj (h.head.symm.trans h'.head))

/-- A plain name that is read from another directory than the project root may show another text. -/
theorem exists_not_shows {root cwd : List String} (hroot : c.projectRoot = .absolute root)
    (hdots : ".." ∉ root) (hne : root ≠ cwd) {d : Diagnostic} (hd : (Path.ofString d.file).Plain) :
    ∃ disk : Disk, disk.cwd = cwd ∧ disk.Houses cwd ∧ disk.Houses root ∧
      ¬ Shows (c.textOf? disk) d (diagnosticJson disk d) := by
  have hseen {disk : Disk} (hcwd : disk.cwd = cwd) :
      disk.locate (.ofString d.file) = disk.walk cwd (Path.ofString d.file).parts := by
    rw [Disk.locate, if_neg (by simp [hd.relative]), hcwd]
  have hown {disk : Disk} (h : disk.Houses root) :
      disk.locate (c.projectRoot.join (.ofString d.file)) =
        disk.walk root (Path.ofString d.file).parts := by
    rw [hroot]
    exact (h.isAt hdots).locate_join hd.relative
  have hdiffers : firstChars 800 (some "x") ≠ firstChars 800 none := by decide
  by_cases hway : root ++ (Path.ofString d.file).parts <+: cwd
  -- the file of the project cannot be there, since the way to the working directory leads through it
  · have hother : ¬ cwd ++ (Path.ofString d.file).parts <+: root := by
      intro h
      have hlength := hway.length_le
      have hlength' := h.length_le
      have hparts := List.length_pos_iff.2 hd.parts_ne_nil
      simp only [List.length_append] at hlength hlength'
      omega
    obtain ⟨disk, hcwd, hhere, hthere, htext, hnone⟩ :=
      Disk.exists_text_from hd (Ne.symm hne) hother cwd
    refine ⟨disk, hcwd, hhere, hthere, fun h => hdiffers ?_⟩
    have heq := (shows_diagnosticJson d).head_eq h
    rwa [htext _ (hseen hcwd), Context.textOf?, hnone _ (hown hthere)] at heq
  · obtain ⟨disk, hcwd, hhere, hthere, htext, hnone⟩ := Disk.exists_text_from hd hne hway cwd
    refine ⟨disk, hcwd, hthere, hhere, fun h => hdiffers ?_⟩
    have heq := (shows_diagnosticJson d).head_eq h
    rw [hnone _ (hseen hcwd), Context.textOf?, htext _ (hown hhere)] at heq
    exact heq.symm

end

/-- A prompt shows of each file that its diagnostics name what the name leads to from the working directory,
while the context of a step shows what the project holds. The prompt shows that too when each name is
absolute or the root of the project is the working directory; and names that lead down show it, whatever the
files hold, in no other case. -/
theorem prompt_shows_project_iff (c : Context) :
    (∀ disk, List.Forall₂ (Shows fun d => disk.text? (.ofString d.file))
      (c.diagnostics.take maxDiagnostics) (shown (contextJson disk c))) ∧
    (∀ disk, (∀ d ∈ c.diagnostics.take maxDiagnostics, c.Agrees disk d) →
      List.Forall₂ (Shows (c.textOf? disk)) (c.diagnostics.take maxDiagnostics)
        (shown (contextJson disk c))) ∧
    (∀ root cwd, c.projectRoot = .absolute root → ".." ∉ root → ".." ∉ cwd →
      (∀ d ∈ c.diagnostics.take maxDiagnostics,
        (Path.ofString d.file).isAbsolute ∨ (Path.ofString d.file).Plain) →
      ((∀ disk : Disk, disk.cwd = cwd → disk.Houses cwd → disk.Houses root →
          List.Forall₂ (Shows (c.textOf? disk)) (c.diagnostics.take maxDiagnostics)
            (shown (contextJson disk c))) ↔
        ∀ d ∈ c.diagnostics.take maxDiagnostics, (Path.ofString d.file).isAbsolute ∨ root = cwd)) ∧
    ∀ (scope : Context.Scope) (disk : Disk) (s : Snapshot) (target : Diagnostic),
      scope.excerptRadius = 400 → scope.headLimit = 800 →
      let built := scope.context disk s (some target)
      built.excerpt = within 400 target.span (built.textOf? disk target) ∧
        built.fileHead = firstChars 800 (built.textOf? disk target) := by
  have hagrees (disk : Disk) (h : ∀ d ∈ c.diagnostics.take maxDiagnostics, c.Agrees disk d) :
      List.Forall₂ (Shows (c.textOf? disk)) (c.diagnostics.take maxDiagnostics)
        (shown (contextJson disk c)) :=
    forall₂_shown_iff.2 fun d hd => (shows_diagnosticJson d).of_eq (h d hd).text?_eq
  refine ⟨fun disk => forall₂_shown_iff.2 fun d _ => shows_diagnosticJson d, hagrees, ?_, ?_⟩
  · intro root cwd hroot hdots hcwd hplain
    constructor
    · intro h d hd
      by_contra hnot
      obtain ⟨hrelative, hne⟩ := not_or.1 hnot
      obtain ⟨disk, hdisk, hhere, hthere, hshows⟩ :=
        exists_not_shows hroot hdots hne ((hplain d hd).resolve_left hrelative)
      exact hshows (forall₂_shown_iff.1 (h disk hdisk hhere hthere) d hd)
    · intro h disk hdisk hhouses _
      refine hagrees disk fun d hd => (h d hd).imp_right ?_
      rintro rfl
      rw [hroot, hdisk]
      exact hhouses.isAt hcwd
  · intro scope disk s target hradius hlimit
    have hexcerpt := readExcerpt_eq disk (scope.projectRoot.join (.ofString target.file)) target.span 400
    have hhead := readHead_eq disk (scope.projectRoot.join (.ofString target.file)) 800
    simp only [Context.Scope.context, hradius, hlimit, Context.textOf?]
    exact ⟨hexcerpt, hhead⟩

namespace Sample

def relative : Diagnostic := ⟨2305, "no member", "src/App.tsx", ⟨1, 2, by decide⟩, none⟩

def scope : Context.Scope := { projectRoot := .absolute ["w", "proj"] }

/-- A project below the working directory. -/
def disk : Disk := .holding ["w"] ["w", "proj", "src", "App.tsx"] "ab" [["w", "proj", "src"]]

end Sample

/-- From the directory above the project the prompt shows nothing of the file, and the context all of it. From
the project's own directory it would show what the project holds. -/
theorem prompt_shows_project_iff_sample :
    let c := Sample.scope.context Sample.disk ⟨[Sample.relative]⟩ (some Sample.relative)
    c.excerpt = "ab" ∧ c.fileHead = "ab" ∧
    List.Forall₂ (Shows fun _ => none) [Sample.relative] (shown (contextJson Sample.disk c)) ∧
    (Path.ofString Sample.relative.file).Plain ∧
    (¬ ∀ disk : Disk, disk.cwd = ["w"] → disk.Houses ["w"] → disk.Houses ["w", "proj"] →
      List.Forall₂ (Shows (c.textOf? disk)) [Sample.relative] (shown (contextJson disk c))) ∧
    ∀ disk : Disk, disk.cwd = ["w", "proj"] → disk.Houses ["w", "proj"] →
      List.Forall₂ (Shows (c.textOf? disk)) [Sample.relative] (shown (contextJson disk c)) := by
  intro c
  have hplain : (Path.ofString Sample.relative.file).Plain :=
    ⟨by decide +kernel, by decide +kernel, by decide +kernel⟩
  have hnames : ∀ d ∈ c.diagnostics.take maxDiagnostics,
      (Path.ofString d.file).isAbsolute ∨ (Path.ofString d.file).Plain := by
    intro d hd
    rw [List.mem_singleton.1 hd]
    exact .inr hplain
  have hown : c.textOf? Sample.disk Sample.relative = some "ab" := by decide +kernel
  have hseen : Sample.disk.text? (.ofString "src/App.tsx") = none := by decide +kernel
  obtain ⟨hshown, -, hiff, hbuilt⟩ := prompt_shows_project_iff c
  obtain ⟨hexcerpt, hhead⟩ :=
    hbuilt Sample.scope Sample.disk ⟨[Sample.relative]⟩ Sample.relative rfl rfl
  refine ⟨?_, ?_, ?_, hplain, fun h => ?_, fun disk hdisk hhouses => ?_⟩
  · exact hexcerpt.trans (by rw [hown]; decide)
  · exact hhead.trans (by rw [hown]; decide)
  · obtain ⟨entry, hentry⟩ : ∃ entry, shown (contextJson Sample.disk c) = [entry] := ⟨_, rfl⟩
    have hone := hshown Sample.disk
    rw [hentry] at hone ⊢
    cases hone with
    | cons h _ => exact .cons (h.of_eq hseen) .nil
  · have habsolute := (hiff ["w", "proj"] ["w"] rfl (by decide) (by decide) hnames).1 h
      Sample.relative (List.mem_singleton.2 rfl)
    exact habsolute.elim (by simp [hplain.relative]) (by decide)
  · exact (hiff ["w", "proj"] ["w", "proj"] rfl (by decide) (by decide) hnames).2
      (fun _ _ => .inr rfl) disk hdisk hhouses hhouses

end ModelPlanner
end Codemod
