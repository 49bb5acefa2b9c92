import Codemod.Manifest
import Codemod.Proofs.Json.Sound

/-! Edits of a manifest. Each brings the packages of the router to the versions of one line, changes
nothing else, and reports the packages that it changed. -/
namespace Codemod.Json

/-! ## Fields -/

theorem erase_set (name : String) (value : α) (fields : List (String × α)) :
    erase name (set name value fields) = erase name fields := by
  induction fields with
  | nil => simp [set, erase]
  | cons f fields ih =>
    unfold set
    split
    · next h => simp [erase, h]
    · simp only [erase, List.filter_cons] at ih ⊢
      rw [ih]

theorem erase_erase (name : String) (fields : List (String × α)) :
    erase name (erase name fields) = erase name fields := by
  rw [erase, erase, List.filter_filter]
  simp

/-- Fields that agree but for one agree in every other one. -/
theorem get?_of_erase {name other : String} {fields fields' : List (String × α)}
    (h : erase name fields' = erase name fields) (hne : name ≠ other) :
    get? fields' other = get? fields other := by
  rw [← get?_erase_of_ne hne, h, get?_erase_of_ne hne]

theorem filter_of_erase {name : String} {fields fields' : List (String × α)} {keep : String × α → Bool}
    (h : erase name fields' = erase name fields) (hkeep : ∀ f, keep f = true → f.1 ≠ name) :
    fields'.filter keep = fields.filter keep := by
  have hboth (fields : List (String × α)) : fields.filter keep = (erase name fields).filter keep := by
    rw [erase, List.filter_filter]
    refine List.filter_congr fun f _ => ?_
    cases hf : keep f with
    | true => simpa using hkeep f hf
    | false => rfl
  rw [hboth, h, ← hboth]

theorem erase_of_get? {name : String} {fields : List (String × α)} (h : get? fields name = none) :
    erase name fields = fields := by
  rw [get?, Option.map_eq_none_iff, List.find?_eq_none] at h
  rw [erase, List.filter_eq_self]
  exact fun f hf => by simpa using h f hf

theorem get?_eq_none_iff {name : String} {fields : List (String × α)} :
    get? fields name = none ↔ name ∉ fields.map (·.1) := by
  rw [get?, Option.map_eq_none_iff, List.find?_eq_none]
  simp only [beq_iff_eq, List.mem_map, not_exists, not_and]

theorem get?_of_filter {name : String} {fields fields' : List (String × α)}
    (h : (fields'.filter fun f => f.1 == name) = fields.filter fun f => f.1 == name) :
    get? fields' name = get? fields name := by
  rw [get?, get?, ← List.head?_filter, ← List.head?_filter, h]

theorem names_set (name : String) (value : α) (fields : List (String × α)) :
    (set name value fields).map (·.1) =
      fields.map (·.1) ++ if name ∈ fields.map (·.1) then [] else [name] := by
  induction fields with
  | nil => rfl
  | cons f fields ih =>
    unfold set
    split
    · next h => simp [h]
    · next h =>
      have hmem : name ∈ f.1 :: fields.map (·.1) ↔ name ∈ fields.map (·.1) := by
        rw [List.mem_cons]
        exact or_iff_right (Ne.symm h)
      rw [List.map_cons, ih, List.map_cons, List.cons_append]
      simp only [hmem]

end Codemod.Json

namespace Codemod.Manifest

/-! ## Packages -/

/-- Every package has the text of a version. -/
def Versioned (packages : Fields) : Prop := ∀ p ∈ packages, ∃ version, p.2 = .str version

def version? (packages : Fields) (name : String) : Option String :=
  (Json.get? packages name).bind Json.str?

theorem Versioned.get?_eq {packages : Fields} (h : Versioned packages) (name : String) :
    Json.get? packages name = (version? packages name).map Json.str := by
  unfold version?
  cases hv : Json.get? packages name with
  | none => rfl
  | some v =>
    obtain ⟨f, hf, rfl⟩ := Option.map_eq_some_iff.1 hv
    obtain ⟨version, hversion⟩ := h f (List.mem_of_find?_eq_some hf)
    rw [hversion]
    rfl

/-- The edit brings one package to a version, or takes it out, keeps the others in their order, and tells
whether anything changed. -/
structure Settles (name : String) (goal : Option String) (change : Fields → Fields × List String) :
    Prop where
  reached : ∀ packages, version? (change packages).1 name = goal
  others : ∀ packages, Json.erase name (change packages).1 = Json.erase name packages
  changed : ∀ packages, Versioned packages →
    (change packages).2 = if version? packages name = goal then [] else [name]
  versioned : ∀ packages, Versioned packages → Versioned (change packages).1
  sound : ∀ packages, Json.SoundFields packages → Json.SoundFields (change packages).1

theorem settles_pin (name version : String) : Settles name (some version) (pin name version) := by
  refine ⟨fun packages => ?_, fun packages => ?_, fun packages _ => ?_, fun packages h => ?_,
    fun packages h => ?_⟩ <;> unfold pin <;> split
  · assumption
  · rw [version?, Json.get?_set_self]
    rfl
  · rfl
  · exact Json.erase_set name _ packages
  · next hsame => exact (if_pos hsame).symm
  · next hother => exact (if_neg hother).symm
  · exact h
  · exact fun p hp => (Json.mem_set hp).elim (fun hp => ⟨version, by rw [hp]⟩) (h p)
  · exact h
  · exact h.set name (.str version)

theorem unpin_fst (name : String) (packages : Fields) :
    (unpin name packages).1 = Json.erase name packages := by
  unfold unpin
  split
  · next h => exact (Json.erase_of_get? h).symm
  · rfl
  · rfl

theorem settles_unpin (name : String) : Settles name none (unpin name) where
  reached := fun packages => by
    rw [unpin_fst, version?, Json.get?_erase_self]
    rfl
  others := fun packages => by rw [unpin_fst, Json.erase_erase]
  changed := fun packages h => by
    rw [unpin, h.get?_eq name]
    cases version? packages name <;> rfl
  versioned := fun packages h p hp => by
    rw [unpin_fst] at hp
    exact h p (List.mem_of_mem_filter hp)
  sound := fun packages h => by
    rw [unpin_fst]
    exact h.erase name

/-- The edit for a package that is to have a version, or not to be there. -/
def toward (name : String) : Option String → Fields → Fields × List String
  | some version => pin name version
  | none => unpin name

theorem settles_toward (name : String) (goal : Option String) : Settles name goal (toward name goal) := by
  cases goal with
  | none => exact settles_unpin name
  | some version => exact settles_pin name version

/-! ## Sections -/

theorem editAll_cons (change : Fields → Fields × List String)
    (changes : List (Fields → Fields × List String)) (packages : Fields) :
    editAll (change :: changes) packages =
      ((editAll changes (change packages).1).1,
        (change packages).2 ++ (editAll changes (change packages).1).2) := by
  have hfold (changes : List (Fields → Fields × List String)) (packages : Fields) (names : List String) :
      changes.foldl (fun r edit => ((edit r.1).1, r.2 ++ (edit r.1).2)) (packages, names) =
        ((editAll changes packages).1, names ++ (editAll changes packages).2) := by
    induction changes generalizing packages names with
    | nil => exact congrArg (packages, ·) (List.append_nil names).symm
    | cons change changes ih =>
      have hstep : editAll (change :: changes) packages =
          changes.foldl (fun r edit => ((edit r.1).1, r.2 ++ (edit r.1).2))
            ((change packages).1, [] ++ (change packages).2) := rfl
      rw [List.foldl_cons, hstep, ih, ih, List.nil_append, List.append_assoc]
  exact hfold changes (change packages).1 ([] ++ (change packages).2)

/-- A section in which some packages have reached their versions, and the names of those that changed. -/
structure Reached (goals : List (String × Option String)) (before : Fields)
    (result : Fields × List String) : Prop where
  goal : ∀ g ∈ goals, version? result.1 g.1 = g.2
  others : ∀ keep : String × Json → Bool, (∀ f, keep f = true → ∀ g ∈ goals, f.1 ≠ g.1) →
    result.1.filter keep = before.filter keep
  changed : result.2 = (goals.filter fun g => version? before g.1 ≠ g.2).map (·.1)
  versioned : Versioned result.1
  sound : Json.SoundFields before → Json.SoundFields result.1

theorem reached_editAll {goals : List (String × Option String)} (hgoals : (goals.map (·.1)).Nodup)
    {packages : Fields} (h : Versioned packages) :
    Reached goals packages (editAll (goals.map fun g => toward g.1 g.2) packages) := by
  induction goals generalizing packages with
  | nil => exact ⟨by simp, fun _ _ => rfl, rfl, h, id⟩
  | cons g goals ih =>
    rw [List.map_cons, List.nodup_cons] at hgoals
    have hne : ∀ g' ∈ goals, g'.1 ≠ g.1 := fun g' hg' he => hgoals.1 (he ▸ List.mem_map_of_mem hg')
    have hstep := settles_toward g.1 g.2
    have hrest := ih hgoals.2 (hstep.versioned packages h)
    rw [List.map_cons, editAll_cons]
    refine ⟨?_, fun keep hkeep => ?_, ?_, hrest.versioned, fun hsound => hrest.sound (hstep.sound _ hsound)⟩
    · rw [List.forall_mem_cons]
      refine ⟨?_, hrest.goal⟩
      have hsame := hrest.others (fun f => f.1 == g.1) fun f hf g' hg' =>
        beq_iff_eq.1 hf ▸ (hne g' hg').symm
      rw [version?, Json.get?_of_filter hsame]
      exact hstep.reached packages
    · rw [hrest.others keep fun f hf g' hg' => hkeep f hf g' (List.mem_cons_of_mem g hg')]
      exact Json.filter_of_erase (hstep.others packages) fun f hf => hkeep f hf g (List.mem_cons_self ..)
    · have hversions : ∀ g' ∈ goals, version? (toward g.1 g.2 packages).1 g'.1 = version? packages g'.1 :=
        fun g' hg' => by
          rw [version?, version?, Json.get?_of_erase (hstep.others packages) (hne g' hg').symm]
      rw [hrest.changed, hstep.changed packages h, List.filter_cons]
      have hfilter : (goals.filter fun g' => version? (toward g.1 g.2 packages).1 g'.1 ≠ g'.2) =
          goals.filter fun g' => version? packages g'.1 ≠ g'.2 :=
        List.filter_congr fun g' hg' => by rw [hversions g' hg']
      rw [hfilter]
      by_cases hsame : version? packages g.1 = g.2 <;> simp [hsame]

/-! ## Manifests -/

def sections : List String := [dependencies, devDependencies]

/-- The packages of a section; none when it is not there. -/
def packagesIn (fields : Fields) (name : String) : Fields :=
  match Json.get? fields name with
  | some (.obj packages) => packages
  | _ => []

/-- The sections that are there list packages with the texts of their versions. -/
def Regular (fields : Fields) : Prop :=
  ∀ name ∈ sections, ∀ v, Json.get? fields name = some v →
    ∃ packages, v = .obj packages ∧ Versioned packages

/-- The packages that edits are about, each with the section it stands in. -/
def managed : List (String × String) :=
  (dependencies, router) :: typePackages.map fun p => (devDependencies, p.1)

/-- The packages of a section that no edit is about. -/
def unmanaged (name : String) (packages : Fields) : Fields :=
  packages.filter fun p => (name, p.1) ∉ managed

/-- The version that each package is to have, if it is to be there. -/
abbrev Target := String → Option String

def newLine (version : String) : Target := fun name => if name = router then some version else none

def oldLine : Target := fun name =>
  if name = router then some oldVersion else Json.get? typePackages name

/-- Everything but the packages of the router is as it was, in its place. -/
structure Kept (before after : Fields) : Prop where
  rest : (after.filter fun f => f.1 ∉ sections) = before.filter fun f => f.1 ∉ sections
  others : ∀ name ∈ sections,
    unmanaged name (packagesIn after name) = unmanaged name (packagesIn before name)

theorem Kept.refl (fields : Fields) : Kept fields fields := ⟨rfl, fun _ _ => rfl⟩

theorem Kept.trans {before between after : Fields} (h : Kept before between) (h' : Kept between after) :
    Kept before after :=
  ⟨h'.rest.trans h.rest, fun name hname => (h'.others name hname).trans (h.others name hname)⟩

/-- Both sections are there, the packages of the router are as the target has them, and everything else is
as it was, in its place. -/
structure Edited (target : Target) (before after : Fields) : Prop extends Kept before after where
  names : after.map (·.1) = before.map (·.1) ++ sections.filter fun name => name ∉ before.map (·.1)
  listed : ∀ name ∈ sections, Json.get? after name = some (.obj (packagesIn after name))
  reached : ∀ m ∈ managed, Json.get? (packagesIn after m.1) m.2 = (target m.2).map Json.str

section
variable {fields : Fields} {name other : String}

theorem get?_withSection_self (h : ∀ v, Json.get? fields name = some v → ∃ packages, v = .obj packages) :
    Json.get? (withSection name fields) name = some (.obj (packagesIn fields name)) := by
  unfold withSection packagesIn
  cases hv : Json.get? fields name with
  | none => exact Json.get?_set_self fields name _
  | some v =>
    obtain ⟨packages, rfl⟩ := h v hv
    exact hv

theorem get?_withSection_of_ne (h : name ≠ other) :
    Json.get? (withSection name fields) other = Json.get? fields other := by
  unfold withSection
  split
  · rfl
  · exact Json.get?_set_of_ne h fields _

theorem names_withSection (name : String) (fields : Fields) : (withSection name fields).map (·.1) =
    fields.map (·.1) ++ if name ∈ fields.map (·.1) then [] else [name] := by
  unfold withSection
  split
  · next h =>
    have hmem : name ∈ fields.map (·.1) := by
      by_contra hnone
      rw [Json.get?_eq_none_iff.2 hnone] at h
      cases h
    rw [if_pos hmem, List.append_nil]
  · exact Json.names_set name _ fields

theorem sound_withSection (h : Json.SoundFields fields) (name : String) :
    Json.SoundFields (withSection name fields) := by
  unfold withSection
  split
  · exact h
  · exact h.set name (Json.sound_obj_iff.2 .nil)

theorem packagesIn_of_get? {packages : Fields} (h : Json.get? fields name = some (.obj packages)) :
    packagesIn fields name = packages := by
  rw [packagesIn, h]

theorem sound_packagesIn (h : Json.SoundFields fields) (name : String) :
    Json.SoundFields (packagesIn fields name) := by
  unfold packagesIn
  split
  · next packages hv => exact Json.sound_obj_iff.1 (h.get? hv)
  · exact .nil

theorem Regular.versioned (h : Regular fields) (hname : name ∈ sections) :
    Versioned (packagesIn fields name) := by
  unfold packagesIn
  split
  · next packages hv =>
    obtain ⟨_, he, hversioned⟩ := h name hname _ hv
    exact Json.obj.inj he ▸ hversioned
  · intro p hp
    cases hp

end

/-- The packages that are not as the target has them. -/
def strays (target : Target) (fields : Fields) : List String :=
  (managed.filter fun m => version? (packagesIn fields m.1) m.2 ≠ target m.2).map (·.2)

/-- The edit toward a target. -/
def editToward (target : Target) : Misfit → Fields → Except Misfit (Fields × List String) :=
  edit (toward router (target router)) (typePackages.map fun p => toward p.1 (target p.1))

theorem upgraded_eq (version : String) : upgraded version = editToward (newLine version) .otherOperation :=
  rfl

theorem reset_eq : reset = editToward oldLine .noSuchOperation := rfl

theorem dependencies_ne : dependencies ≠ devDependencies := by decide

/-- A manifest with both sections, the first ones put in when they are not there. -/
def withSections (fields : Fields) : Fields := withSection devDependencies (withSection dependencies fields)

/-- A manifest with other packages in its sections. -/
def putSections (needed dev : Fields) (fields : Fields) : Fields :=
  Json.set devDependencies (.obj dev) (Json.set dependencies (.obj needed) (withSections fields))

section
variable {fields needed dev : Fields}

theorem get?_withSections (h : Regular fields) {name : String} (hname : name ∈ sections) :
    Json.get? (withSections fields) name = some (.obj (packagesIn fields name)) := by
  have hobj {name : String} (hname : name ∈ sections) (v : Json) (hv : Json.get? fields name = some v) :
      ∃ packages, v = .obj packages :=
    (h name hname v hv).imp fun _ => And.left
  have hdev : Json.get? (withSection dependencies fields) devDependencies = Json.get? fields devDependencies :=
    get?_withSection_of_ne dependencies_ne
  rw [sections, List.mem_cons, List.mem_singleton] at hname
  rcases hname with rfl | rfl
  · rw [withSections, get?_withSection_of_ne dependencies_ne.symm, get?_withSection_self (hobj (by decide))]
  · rw [withSections, get?_withSection_self fun v hv => hobj (by decide) v (hdev ▸ hv), packagesIn, packagesIn,
      hdev]

theorem names_withSections (fields : Fields) : (withSections fields).map (·.1) =
    fields.map (·.1) ++ sections.filter fun name => name ∉ fields.map (·.1) := by
  have hne := dependencies_ne
  rw [withSections, names_withSection, names_withSection, sections]
  by_cases hneeded : dependencies ∈ fields.map (·.1) <;>
    by_cases hdev : devDependencies ∈ fields.map (·.1) <;>
    simp only [hneeded, hdev, List.filter_cons, List.filter_nil, List.mem_append, List.mem_singleton,
      hne.symm, if_true, if_false, not_true, not_false_eq_true, decide_true, decide_false, or_false,
      List.append_nil, List.append_assoc, List.cons_append, List.nil_append, Bool.false_eq_true]

theorem mem_names_withSections {name : String} (hname : name ∈ sections) :
    name ∈ (withSections fields).map (·.1) := by
  rw [names_withSections, List.mem_append, List.mem_filter]
  by_cases h : name ∈ fields.map (·.1)
  · exact .inl h
  · exact .inr ⟨hname, by simpa using h⟩

theorem names_putSections (needed dev fields : Fields) : (putSections needed dev fields).map (·.1) =
    fields.map (·.1) ++ sections.filter fun name => name ∉ fields.map (·.1) := by
  have hneeded : dependencies ∈ (withSections fields).map (·.1) := mem_names_withSections (by decide)
  have hdev : devDependencies ∈ (withSections fields).map (·.1) := mem_names_withSections (by decide)
  rw [putSections, Json.names_set, Json.names_set, if_pos hneeded, List.append_nil, if_pos hdev,
    List.append_nil, names_withSections]

theorem rest_putSections (needed dev fields : Fields) :
    ((putSections needed dev fields).filter fun f => f.1 ∉ sections) =
      fields.filter fun f => f.1 ∉ sections := by
  have hne {name : String} (hname : name ∈ sections) (f : String × Json)
      (hf : decide (f.1 ∉ sections) = true) : f.1 ≠ name :=
    fun he => of_decide_eq_true hf (he ▸ hname)
  have hset {name : String} (hname : name ∈ sections) (v : Json) (fields : Fields) :
      ((Json.set name v fields).filter fun f => f.1 ∉ sections) = fields.filter fun f => f.1 ∉ sections :=
    Json.filter_of_erase (Json.erase_set name v fields) (hne hname)
  have hwith {name : String} (hname : name ∈ sections) (fields : Fields) :
      ((withSection name fields).filter fun f => f.1 ∉ sections) = fields.filter fun f => f.1 ∉ sections := by
    unfold withSection
    split
    · rfl
    · exact hset hname _ fields
  rw [putSections, hset (by decide), hset (by decide), withSections, hwith (by decide), hwith (by decide)]

theorem get?_putSections_dependencies :
    Json.get? (putSections needed dev fields) dependencies = some (.obj needed) := by
  rw [putSections, Json.get?_set_of_ne dependencies_ne.symm, Json.get?_set_self]

theorem get?_putSections_devDependencies :
    Json.get? (putSections needed dev fields) devDependencies = some (.obj dev) :=
  Json.get?_set_self _ _ _

theorem sound_putSections (h : Json.SoundFields fields) (hneeded : Json.SoundFields needed)
    (hdev : Json.SoundFields dev) : Json.SoundFields (putSections needed dev fields) :=
  ((sound_withSection (sound_withSection h _) _).set _ (Json.sound_obj_iff.2 hneeded)).set _
    (Json.sound_obj_iff.2 hdev)

end

/-- The goals of a target for the packages that only the old line needs. -/
def typeGoals (target : Target) : List (String × Option String) :=
  typePackages.map fun p => (p.1, target p.1)

theorem editToward_eq (target : Target) (ofList : Misfit) {before : Fields} (h : Regular before) :
    let needed := toward router (target router) (packagesIn before dependencies)
    let dev := editAll ((typeGoals target).map fun g => toward g.1 g.2) (packagesIn before devDependencies)
    editToward target ofList before = .ok (putSections needed.1 dev.1 before, needed.2 ++ dev.2) := by
  have hneeded := get?_withSections h (show dependencies ∈ sections by decide)
  have hdev := get?_withSections h (show devDependencies ∈ sections by decide)
  rw [withSections] at hneeded hdev
  unfold editToward edit packages
  simp only [hneeded, hdev]
  rfl

theorem nodup_typeGoals (target : Target) : ((typeGoals target).map (·.1)).Nodup := by
  rw [typeGoals, List.map_map]
  change (typePackages.map (·.1)).Nodup
  decide

theorem strays_eq (target : Target) (fields : Fields) : strays target fields =
    (if version? (packagesIn fields dependencies) router = target router then [] else [router]) ++
      ((typeGoals target).filter fun g =>
        version? (packagesIn fields devDependencies) g.1 ≠ g.2).map (·.1) := by
  have hrest : ((typePackages.map fun p => (devDependencies, p.1)).filter fun m =>
        version? (packagesIn fields m.1) m.2 ≠ target m.2).map (·.2) =
      ((typeGoals target).filter fun g => version? (packagesIn fields devDependencies) g.1 ≠ g.2).map (·.1) := by
    rw [typeGoals, List.filter_map, List.filter_map, List.map_map, List.map_map]
    rfl
  rw [← hrest, strays, managed]
  by_cases h : version? (packagesIn fields dependencies) router = target router
  · rw [if_pos h, List.filter_cons_of_neg (by simpa using h), List.nil_append]
  · rw [if_neg h, List.filter_cons_of_pos (by simpa using h), List.map_cons, List.singleton_append]

theorem mem_managed_iff {m : String × String} : m ∈ managed ↔
    m = (dependencies, router) ∨ ∃ p ∈ typePackages, m = (devDependencies, p.1) := by
  rw [managed, List.mem_cons, List.mem_map]
  simp only [eq_comm]

section
variable {target : Target} {before needed : Fields} {dev : Fields × List String}
  (hneeded : Versioned needed ∧ version? needed router = target router ∧
    Json.erase router needed = Json.erase router (packagesIn before dependencies))
  (hdev : Reached (typeGoals target) (packagesIn before devDependencies) dev)
include hneeded hdev

theorem edited_putSections : Edited target before (putSections needed dev.1 before) := by
  have hfirst : packagesIn (putSections needed dev.1 before) dependencies = needed :=
    packagesIn_of_get? get?_putSections_dependencies
  have hsecond : packagesIn (putSections needed dev.1 before) devDependencies = dev.1 :=
    packagesIn_of_get? get?_putSections_devDependencies
  obtain ⟨hversioned, hreached, herase⟩ := hneeded
  refine ⟨⟨rest_putSections needed dev.1 before, ?_⟩, names_putSections needed dev.1 before, ?_, ?_⟩
  rotate_left
  · simp only [sections, List.mem_cons, List.not_mem_nil, or_false, forall_eq_or_imp, forall_eq]
    rw [hfirst, hsecond]
    exact ⟨get?_putSections_dependencies, get?_putSections_devDependencies⟩
  · intro m hm
    rcases mem_managed_iff.1 hm with rfl | ⟨p, hp, rfl⟩
    · rw [hfirst, hversioned.get?_eq, hreached]
    · rw [hsecond, hdev.versioned.get?_eq,
        hdev.goal (p.1, target p.1) (List.mem_map_of_mem hp)]
  · simp only [sections, List.mem_cons, List.not_mem_nil, or_false, forall_eq_or_imp, forall_eq]
    rw [hfirst, hsecond]
    refine ⟨Json.filter_of_erase herase fun f hf => ?_, hdev.others _ fun f hf g hg => ?_⟩
    · intro he
      exact absurd (mem_managed_iff.2 (.inl (by rw [he]))) (of_decide_eq_true hf)
    · obtain ⟨p, hp, rfl⟩ := List.mem_map.1 hg
      intro he
      exact absurd (mem_managed_iff.2 (.inr ⟨p, hp, by rw [he]⟩)) (of_decide_eq_true hf)

theorem regular_putSections : Regular (putSections needed dev.1 before) := by
  intro name hname v hv
  rw [sections, List.mem_cons, List.mem_singleton] at hname
  rcases hname with rfl | rfl
  · rw [get?_putSections_dependencies] at hv
    exact ⟨needed, (Option.some.inj hv).symm, hneeded.1⟩
  · rw [get?_putSections_devDependencies] at hv
    exact ⟨dev.1, (Option.some.inj hv).symm, hdev.versioned⟩

end

/-- An edit of a regular manifest succeeds, and reports what was not as it is to be. -/
theorem exists_edited (target : Target) (ofList : Misfit) {before : Fields} (h : Regular before) :
    ∃ after, editToward target ofList before = .ok (after, strays target before) ∧
      Edited target before after ∧ Regular after ∧
      (Json.SoundFields before → Json.SoundFields after) := by
  have hold : Versioned (packagesIn before dependencies) := h.versioned (by decide)
  have hsettles := settles_toward router (target router)
  have hneeded := And.intro (hsettles.versioned _ hold)
    (And.intro (hsettles.reached (packagesIn before dependencies))
      (hsettles.others (packagesIn before dependencies)))
  have hdev := reached_editAll (nodup_typeGoals target)
    (h.versioned (show devDependencies ∈ sections by decide))
  refine ⟨_, (editToward_eq target ofList h).trans ?_, edited_putSections hneeded hdev,
    regular_putSections hneeded hdev, fun hsound => ?_⟩
  · rw [strays_eq, hsettles.changed _ hold, hdev.changed]
  · exact sound_putSections hsound (hsettles.sound _ (sound_packagesIn hsound _))
      (hdev.sound (sound_packagesIn hsound _))

end Codemod.Manifest
