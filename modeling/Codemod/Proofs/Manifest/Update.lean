import Codemod.Proofs.Act
import Codemod.Proofs.Disk.Overwrite
import Codemod.Proofs.Json.LineFeed
import Codemod.Proofs.Manifest.Edit
import Codemod.Proofs.Text.Lines

/-! Updates of the manifest on the disk. An update changes the file of the manifest and nothing else, in it
the packages of the router and nothing else, and a second one finds nothing left to do. -/
namespace Codemod.Manifest
open Act

/-- The manifest of a project, as it is read. -/
def Holds (d : Disk) (root : Path) (fields : Fields) : Prop :=
  ∃ text, d.readLines (root.child fileName) = .ok text ∧ Json.parse text = .ok (.obj fields)

section
variable {d : Disk} {root : Path} {fields : Fields}

theorem Holds.sound (h : Holds d root fields) : Json.SoundFields fields := by
  obtain ⟨text, -, hparse⟩ := h
  exact Json.sound_obj_iff.1 (Json.sound_of_read hparse)

theorem Holds.exists_fileAt (h : Holds d root fields) :
    ∃ place bytes, d.FileAt (root.child fileName) place bytes := by
  obtain ⟨text, hread, -⟩ := h
  rw [Disk.readLines] at hread
  cases hraw : d.readText (root.child fileName) with
  | error e =>
    rw [hraw] at hread
    cases hread
  | ok raw =>
    obtain ⟨place, hplace⟩ := Disk.readText_eq_ok_iff.1 hraw
    exact ⟨place, _, hplace⟩

/-- A disk holds one manifest of a project. -/
theorem Holds.unique (h : Holds d root fields) {fields' : Fields} (h' : Holds d root fields') :
    fields' = fields := by
  obtain ⟨text, hread, hparse⟩ := h
  obtain ⟨text', hread', hparse'⟩ := h'
  obtain rfl := Except.ok.inj (hread.symm.trans hread')
  exact Json.obj.inj (Except.ok.inj (hparse'.symm.trans hparse))

/-- The text of a manifest as it is written. -/
def written (fields : Fields) : String := (Json.obj fields).render Json.Layout.indented ++ "\n"

/-- What is written is read back. -/
theorem holds_of_fileAt {place : List String}
    (hfile : d.FileAt (root.child fileName) place (written fields).toUTF8)
    (hsound : Json.SoundFields fields) : Holds d root fields := by
  have hobj := Json.sound_obj_iff.2 hsound
  have hfeeds : '\r' ∉ (written fields).toList := by
    rw [written, String.toList_append, List.mem_append, not_or]
    exact ⟨Json.not_mem_write (by simp [Json.Layout.indented]) (by simp [Json.Layout.indented]) rfl hobj 0,
      by simp⟩
  refine ⟨written fields, ?_, Json.parse_render Json.faithful_indented hobj⟩
  rw [Disk.readLines, Disk.readText_eq_ok_iff.2 ⟨place, hfile⟩, Except.map,
    Text.unifyLineEnds_eq_self hfeeds, String.ofList_toList]

theorem holds_put {place : List String} {bytes : ByteArray}
    (hfile : d.FileAt (root.child fileName) place bytes) (hsound : Json.SoundFields fields) :
    Holds (d.put place (.file (written fields).toUTF8)) root fields := by
  have hput : (d.put place (.file (written fields).toUTF8)).FileAt (root.child fileName) place
      (written fields).toUTF8 := by
    refine ⟨(Disk.walk_put hfile.node _ _ _).trans hfile.locate, ?_⟩
    rw [Disk.node?_put d (Disk.ne_nil_of_file hfile.node), if_pos rfl]
  exact holds_of_fileAt hput hsound

end

/-! ## One update -/

section
variable {root : Path} {w : World σ} {before after : Fields}

theorem exec_read (h : Holds w.disk root before) : exec (read root) w = (.ok before, w) := by
  obtain ⟨text, hread, hparse⟩ := h
  unfold read
  rw [exec_bind_ok (exec_getDisk w), hread]
  dsimp only
  rw [hparse]
  rfl

theorem exec_write_manifest {place : List String} {bytes : ByteArray}
    (hfile : w.disk.FileAt (root.child fileName) place bytes) (fields : Fields) :
    exec (write root (.obj fields)) w =
      (.ok (), { w with disk := w.disk.put place (.file (written fields).toUTF8) }) := by
  rw [write, exec_write, ← written, hfile.write]

/-- Reading the manifest changes nothing. -/
theorem exec_read_snd (root : Path) (w : World σ) : (exec (read root) w).2 = w := by
  unfold read
  rw [exec_bind_ok (exec_getDisk w)]
  split
  · rfl
  · rfl
  · split <;> rfl

theorem exec_update_eq (edit : Fields → Except Misfit (Fields × List String)) (root : Path)
    (w : World σ) : exec (update edit root) w = match exec (read root) w with
      | (.error e, _) => (.error e, w)
      | (.ok fields, _) => match edit fields with
        | .error m => (.error (.misfit m), w)
        | .ok (_, []) => (.ok [], w)
        | .ok (fields, changed) => match exec (write root (.obj fields)) w with
          | (.ok _, w') => (.ok changed, w')
          | (.error e, w') => (.error e, w') := by
  have hworld := exec_read_snd root w
  unfold update
  rw [exec_bind]
  generalize exec (read root) w = r at hworld
  obtain ⟨result, w'⟩ := r
  obtain rfl : w' = w := hworld
  cases result with
  | error e => rfl
  | ok fields =>
    dsimp only
    cases edit fields with
    | error m => rfl
    | ok r =>
      obtain ⟨fields, changed⟩ := r
      cases changed with
      | nil => rfl
      | cons name changed =>
        change exec (write root (.obj fields) >>= fun _ => pure (name :: changed)) w' =
          match exec (write root (.obj fields)) w' with
          | (.ok _, w') => (.ok (name :: changed), w')
          | (.error e, w') => (.error e, w')
        rw [exec_bind]
        rcases exec (write root (.obj fields)) w' with ⟨e | _, u⟩ <;> rfl

/-- An update that fails leaves the world as it was. -/
theorem exec_update_error {edit : Fields → Except Misfit (Fields × List String)} {e : Failure}
    {w' : World σ} (h : exec (update edit root) w = (.error e, w')) : w' = w := by
  rw [exec_update_eq] at h
  split at h
  · exact (Prod.mk.inj h).2.symm
  · split at h
    · exact (Prod.mk.inj h).2.symm
    · cases h
    · rw [write, exec_write] at h
      split at h
      · cases h
      · next hwrite =>
        split at hwrite
        · cases hwrite
        · obtain ⟨-, rfl⟩ := Prod.mk.inj hwrite
          exact (Prod.mk.inj h).2.symm

end

/-! ## What is left to do -/

section
variable {target : Target} {before after : Fields}

theorem mem_sections_of_managed {m : String × String} (h : m ∈ managed) : m.1 ∈ sections := by
  rcases mem_managed_iff.1 h with rfl | ⟨p, -, rfl⟩
  · exact List.mem_cons_self ..
  · exact List.mem_cons_of_mem _ (List.mem_singleton_self _)

theorem strays_eq_nil_iff : strays target before = [] ↔
    ∀ m ∈ managed, version? (packagesIn before m.1) m.2 = target m.2 := by
  rw [strays, List.map_eq_nil_iff, List.filter_eq_nil_iff]
  simp only [decide_eq_true_eq, not_not]

theorem mem_strays_iff {name : String} : name ∈ strays target before ↔
    ∃ s, (s, name) ∈ managed ∧ version? (packagesIn before s) name ≠ target name := by
  rw [strays, List.mem_map]
  constructor
  · rintro ⟨⟨s, _⟩, hm, rfl⟩
    exact ⟨s, List.mem_of_mem_filter hm, of_decide_eq_true (List.mem_filter.1 hm).2⟩
  · rintro ⟨s, hmanaged, hversion⟩
    exact ⟨(s, name), List.mem_filter.2 ⟨hmanaged, decide_eq_true hversion⟩, rfl⟩

theorem nodup_strays (target : Target) (fields : Fields) : (strays target fields).Nodup :=
  List.Nodup.sublist (List.filter_sublist.map _) (by decide : (managed.map (·.2)).Nodup)

/-- An edit leaves nothing to do for another one. -/
theorem Edited.strays_eq (h : Edited target before after) : strays target after = [] := by
  refine strays_eq_nil_iff.2 fun m hm => ?_
  rw [version?, h.reached m hm]
  cases target m.2 <;> rfl

/-- A package that no edit is about is as it was. -/
theorem Kept.get?_eq (h : Kept before after) {s name : String} (hs : s ∈ sections)
    (hname : (s, name) ∉ managed) :
    Json.get? (packagesIn after s) name = Json.get? (packagesIn before s) name := by
  have hnamed (packages : Fields) : (packages.filter fun p => p.1 == name) =
      (unmanaged s packages).filter fun p => p.1 == name := by
    rw [unmanaged, List.filter_filter]
    refine List.filter_congr fun p _ => ?_
    by_cases hp : p.1 = name
    · simp [hp, hname]
    · simp [hp]
  refine Json.get?_of_filter ?_
  rw [hnamed, h.others s hs, ← hnamed]

/-- The packages that are left to do are the ones whose entries an edit changes. -/
theorem Edited.mem_strays_iff (h : Edited target before after) (hregular : Regular before) (name : String) :
    name ∈ strays target before ↔ ∃ s ∈ sections,
      Json.get? (packagesIn before s) name ≠ Json.get? (packagesIn after s) name := by
  have hiff {s : String} (hm : (s, name) ∈ managed) :
      Json.get? (packagesIn before s) name ≠ Json.get? (packagesIn after s) name ↔
        version? (packagesIn before s) name ≠ target name := by
    have hreached := h.reached _ hm
    dsimp only at hreached
    rw [(hregular.versioned (mem_sections_of_managed hm)).get?_eq, hreached]
    exact not_congr (Option.map_injective fun _ _ => Json.str.inj).eq_iff
  rw [Manifest.mem_strays_iff]
  constructor
  · rintro ⟨s, hm, hversion⟩
    exact ⟨s, mem_sections_of_managed hm, (hiff hm).2 hversion⟩
  · rintro ⟨s, hs, hdiffers⟩
    by_cases hm : (s, name) ∈ managed
    · exact ⟨s, hm, (hiff hm).1 hdiffers⟩
    · exact absurd (h.toKept.get?_eq hs hm).symm hdiffers

end

/-! ## Updates toward a target -/

/-- What an update toward a target comes to, for a project whose manifest is `before`: the manifest
afterwards, the names it reports, and the world it leaves. -/
structure Outcome (target : Target) (root : Path) (before after : Fields) (names : List String)
    (w w' : World σ) : Prop where
  holds : Holds w'.disk root after
  regular : Regular after
  kept : Kept before after
  reached : ∀ m ∈ managed, Json.get? (packagesIn after m.1) m.2 = (target m.2).map Json.str
  nodup : names.Nodup
  changed : ∀ name, name ∈ names ↔ ∃ s ∈ sections,
    Json.get? (packagesIn before s) name ≠ Json.get? (packagesIn after s) name
  untouched : names = [] → after = before ∧ w' = w
  edited : names ≠ [] → Edited target before after
  /-- What is written is the file of the manifest alone. -/
  stored : names ≠ [] → ∃ place bytes, w.disk.FileAt (root.child fileName) place bytes ∧
    w' = { w with disk := w.disk.put place (.file (written after).toUTF8) }

/-- An update toward a target succeeds, and a second one reports nothing and writes nothing. -/
def Confined (x : Act σ (List String)) (target : Target) (root : Path) (before : Fields) (w : World σ) :
    Prop :=
  ∃ after names w', exec x w = (.ok names, w') ∧ Outcome target root before after names w w' ∧
    exec x w' = (.ok [], w')

section
variable {target : Target} {root : Path} {w : World σ} {before : Fields}

/-- Nothing is written when there is nothing to do. -/
theorem exec_update_of_strays_nil (ofList : Misfit) (h : Holds w.disk root before) (hregular : Regular before)
    (hnone : strays target before = []) : exec (update (editToward target ofList) root) w = (.ok [], w) := by
  obtain ⟨after, hedit, -⟩ := exists_edited target ofList hregular
  rw [exec_update_eq, exec_read h]
  dsimp only
  rw [hedit, hnone]

/-- The edited manifest is written when there is something to do. -/
theorem exec_update_of_strays {ofList : Misfit} (h : Holds w.disk root before) {after : Fields}
    (hedit : editToward target ofList before = .ok (after, strays target before))
    (hsome : strays target before ≠ []) {place : List String} {bytes : ByteArray}
    (hfile : w.disk.FileAt (root.child fileName) place bytes) :
    exec (update (editToward target ofList) root) w = (.ok (strays target before),
      { w with disk := w.disk.put place (.file (written after).toUTF8) }) := by
  rw [exec_update_eq, exec_read h]
  dsimp only
  rw [hedit]
  cases hnames : strays target before with
  | nil => exact absurd hnames hsome
  | cons name names =>
    dsimp only
    rw [exec_write_manifest hfile]

theorem confined_update (target : Target) (ofList : Misfit) (h : Holds w.disk root before)
    (hregular : Regular before) : Confined (update (editToward target ofList) root) target root before w := by
  by_cases hnone : strays target before = []
  · have hexec := exec_update_of_strays_nil ofList h hregular hnone
    refine ⟨before, [], w, hexec, ⟨h, hregular, .refl before, fun m hm => ?_, .nil, fun name => ?_,
      fun _ => ⟨rfl, rfl⟩, fun hne => absurd rfl hne, fun hne => absurd rfl hne⟩, hexec⟩
    · rw [(hregular.versioned (mem_sections_of_managed hm)).get?_eq, strays_eq_nil_iff.1 hnone m hm]
    · simp only [List.not_mem_nil, ne_eq, not_true_eq_false, and_false, exists_false]
  · obtain ⟨after, hedit, hedited, hregular', hsound⟩ := exists_edited target ofList hregular
    obtain ⟨place, bytes, hfile⟩ := h.exists_fileAt
    have hholds := holds_put hfile (hsound h.sound)
    exact ⟨after, strays target before, _, exec_update_of_strays h hedit hnone hfile,
      ⟨hholds, hregular', hedited.toKept, hedited.reached, nodup_strays target before,
        hedited.mem_strays_iff hregular, fun he => absurd he hnone, fun _ => hedited,
        fun _ => ⟨place, bytes, hfile, rfl⟩⟩,
      exec_update_of_strays_nil ofList hholds hregular' hedited.strays_eq⟩

end

/-- A manifest on the old line, with a package in a section of its own and a value nested in lists. -/
def sample : Fields :=
  [("name", .str "caf\u00e9 \"menu\""),
    (dependencies, .obj [("react", .str "^18.2.0"), (router, .str "^5.2.0"), ("zustand", .str "4.4.1")]),
    ("limits", .arr [.float 0.1, .int (-3), .arr [.null, .obj [("strict", .bool true)]]]),
    (devDependencies, .obj [("@types/history", .str "^4.7.11"), ("vite", .str "^5.0.0")])]

theorem sound_sample : Json.SoundFields sample := by
  have hthree : (-3 : Int).natAbs < 10 ^ Json.digitLimit :=
    lt_trans (by decide : 3 < Json.digitLimit) (Nat.lt_pow_self (by decide))
  refine ⟨?_, by decide⟩
  simp only [sample, List.forall_mem_cons, List.not_mem_nil, false_imp_iff, implies_true, and_true]
  refine ⟨.str _, .obj ?_ (by decide), .arr ?_, .obj ?_ (by decide)⟩ <;>
    simp only [List.forall_mem_cons, List.not_mem_nil, false_imp_iff, implies_true, and_true]
  · exact ⟨.str _, .str _, .str _⟩
  · refine ⟨.float _, .int hthree, .arr ?_⟩
    simp only [List.forall_mem_cons, List.not_mem_nil, false_imp_iff, implies_true, and_true]
    exact ⟨.null, .obj (List.forall_mem_singleton.2 (.bool true)) (by decide)⟩
  · exact ⟨.str _, .str _⟩

theorem regular_sample : Regular sample := by
  simp only [Regular, sections, List.forall_mem_cons, List.not_mem_nil, false_imp_iff, implies_true, and_true]
  refine ⟨fun v hv => ⟨_, (Option.some.inj hv).symm, ?_⟩, fun v hv => ⟨_, (Option.some.inj hv).symm, ?_⟩⟩ <;>
    simp only [Versioned, List.forall_mem_cons, List.not_mem_nil, false_imp_iff, implies_true, and_true]
  · exact ⟨⟨_, rfl⟩, ⟨_, rfl⟩, ⟨_, rfl⟩⟩
  · exact ⟨⟨_, rfl⟩, ⟨_, rfl⟩⟩

/-- A world whose only file is that manifest. -/
def sampleWorld : World Unit where
  disk := { cwd := ["app"], entries := [(["app"], .directory),
    (["app", fileName], .file (written sample).toUTF8)] }
  events := []
  listening := false
  outside := ()

end Codemod.Manifest
