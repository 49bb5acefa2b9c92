import Codemod.Disk

/-! Writing over files that are there. Such writes move no path, a place ends up with what was last
written to it, and writing back what was there restores the disk. -/
namespace Codemod.Disk

/-! Text and bytes. -/

theorem toUTF8_of_fromUTF8? {bytes : ByteArray} {s : String}
    (h : String.fromUTF8? bytes = some s) : s.toUTF8 = bytes := by
  unfold String.fromUTF8? at h
  split at h
  · cases Option.some.inj h
    rfl
  · contradiction

theorem fromUTF8?_toUTF8 (s : String) : String.fromUTF8? s.toUTF8 = some s := by
  unfold String.fromUTF8?
  rw [String.toUTF8_eq_toByteArray, dif_pos s.isValidUTF8]
  rfl

theorem toUTF8_inj {s t : String} : s.toUTF8 = t.toUTF8 ↔ s = t := by
  refine ⟨fun h => ?_, fun h => h ▸ rfl⟩
  have := fromUTF8?_toUTF8 s
  rw [h, fromUTF8?_toUTF8] at this
  exact (Option.some.inj this).symm

/-- The path leads to a place, and a file with these bytes is there. -/
structure FileAt (d : Disk) (p : Path) (place : List String) (bytes : ByteArray) : Prop where
  locate : d.locate p = .ok place
  node : d.node? place = some (.file bytes)

/-- A path is read as a text when it leads to a file that holds the bytes of the text. -/
theorem readText_eq_ok_iff {d : Disk} {p : Path} {s : String} :
    d.readText p = .ok s ↔ ∃ place, d.FileAt p place s.toUTF8 := by
  unfold readText readBytes stat
  constructor
  · intro h
    cases hl : d.locate p with
    | error e => simp [hl, Except.bind] at h
    | ok place =>
      cases hn : d.node? place with
      | none => simp [hl, hn, Except.bind] at h
      | some n =>
        cases n with
        | directory => simp [hl, hn, Except.bind] at h
        | file bytes =>
          cases hs : String.fromUTF8? bytes with
          | none => simp [hl, hn, hs, Except.bind] at h
          | some t =>
            simp only [hl, hn, hs, Except.bind, Except.ok.injEq] at h
            subst h
            exact ⟨place, hl, by rw [hn, toUTF8_of_fromUTF8? hs]⟩
  · rintro ⟨place, hl, hn⟩
    simp only [hl, hn, Except.bind, fromUTF8?_toUTF8]

theorem ne_nil_of_file {d : Disk} {place : List String} {bytes : ByteArray}
    (h : d.node? place = some (.file bytes)) : place ≠ [] := by
  rintro rfl
  simp [node?] at h

theorem FileAt.write {d : Disk} {p : Path} {place : List String} {bytes : ByteArray}
    (h : d.FileAt p place bytes) (s : String) :
    d.write p s = .ok (d.put place (.file s.toUTF8)) := by
  unfold Disk.write
  simp [h.locate, h.node, Except.bind]

/-! Entries. -/

theorem setEntry_setEntry (place : List String) (m n : Node) (entries : List (List String × Node)) :
    setEntry place n (setEntry place m entries) = setEntry place n entries := by
  induction entries with
  | nil => simp [setEntry]
  | cons e entries ih =>
    by_cases h : e.1 = place
    · simp [setEntry, h]
    · simp [setEntry, h, ih]

theorem setEntry_of_find? {place : List String} {n : Node} {entries : List (List String × Node)}
    (h : (entries.find? (·.1 == place)).map (·.2) = some n) :
    setEntry place n entries = entries := by
  induction entries with
  | nil => simp at h
  | cons e entries ih =>
    by_cases he : e.1 = place
    · have : e.2 = n := by simpa [he] using h
      simp [setEntry, ← he, ← this]
    · simp only [setEntry, beq_iff_eq, he, if_false]
      rw [ih (by simpa [he] using h)]

theorem setEntry_comm {p q : List String} (hne : p ≠ q) (m n : Node)
    {entries : List (List String × Node)} (hp : (entries.find? (·.1 == p)).isSome) :
    setEntry q n (setEntry p m entries) = setEntry p m (setEntry q n entries) := by
  -- An entry for `p` keeps its position, so a new entry for `q` comes behind it either way.
  induction entries with
  | nil => simp at hp
  | cons e entries ih =>
    by_cases hep : e.1 = p
    · have heq : e.1 ≠ q := fun h => hne (hep.symm.trans h)
      simp [setEntry, hep, hne]
    · by_cases heq : e.1 = q
      · simp [setEntry, heq, Ne.symm hne]
      · simp only [setEntry, beq_iff_eq, hep, heq, if_false]
        rw [ih (by simpa [hep] using hp)]

theorem put_put (d : Disk) (place : List String) (m n : Node) :
    (d.put place m).put place n = d.put place n := by
  simp [put, setEntry_setEntry]

theorem put_of_node? {d : Disk} {place : List String} {n : Node} (hne : place ≠ [])
    (h : d.node? place = some n) : d.put place n = d := by
  have h : (d.entries.find? (·.1 == place)).map (·.2) = some n := by simpa [node?, hne] using h
  simp [put, setEntry_of_find? h]

theorem node?_put_of_ne {d : Disk} {place other : List String} (h : place ≠ other) (n : Node) :
    (d.put place n).node? other = d.node? other := by
  unfold node? put
  rw [find?_setEntry, if_neg h]

theorem put_comm {d : Disk} {p q : List String} (hne : p ≠ q) (hp : p ≠ [])
    (h : (d.node? p).isSome) (m n : Node) : (d.put p m).put q n = (d.put q n).put p m := by
  have h : (d.entries.find? (·.1 == p)).isSome := by simpa [node?, hp] using h
  simp [put, setEntry_comm hne m n h]

/-! Writing over files. -/

/-- A path leads where it led before, when only the content of a file has changed. -/
theorem walk_put {d : Disk} {place : List String} {old : ByteArray}
    (h : d.node? place = some (.file old)) (new : ByteArray) (parts at' : List String) :
    (d.put place (.file new)).walk at' parts = d.walk at' parts := by
  induction parts generalizing at' with
  | nil => rfl
  | cons part rest ih =>
    simp only [walk, ih, node?_put d (ne_nil_of_file h)]
    by_cases hp : place = at' ++ [part]
    · simp [← hp, h]
    · simp [hp]

theorem FileAt.put {d : Disk} {p : Path} {place other : List String} {bytes old : ByteArray}
    (h : d.FileAt p place bytes) (ho : d.node? other = some (.file old)) (new : ByteArray) :
    ∃ bytes', (d.put other (.file new)).FileAt p place bytes' := by
  have hl : (d.put other (.file new)).locate p = .ok place :=
    (walk_put ho new p.parts _).trans h.locate
  have hn := node?_put d (ne_nil_of_file ho) (.file new) place
  split at hn
  · exact ⟨new, hl, hn⟩
  · exact ⟨bytes, hl, hn.trans h.node⟩

/-- The disk after bytes have been written to places, one after the other. -/
def overwrite (d : Disk) (writes : List (List String × ByteArray)) : Disk :=
  writes.foldl (fun d w => d.put w.1 (.file w.2)) d

/-- A file is at every place that is to be written to. -/
def Covers (d : Disk) (writes : List (List String × ByteArray)) : Prop :=
  ∀ w ∈ writes, ∃ bytes, d.node? w.1 = some (.file bytes)

theorem Covers.tail {d : Disk} {w : List String × ByteArray}
    {writes : List (List String × ByteArray)} (h : d.Covers (w :: writes)) :
    (d.put w.1 (.file w.2)).Covers writes := by
  obtain ⟨old, hw⟩ := h w (by simp)
  intro v hv
  rw [node?_put d (ne_nil_of_file hw)]
  split
  · exact ⟨_, rfl⟩
  · exact h v (by simp [hv])

/-- A place holds what was last written to it, and what it held if nothing was. -/
theorem node?_overwrite {d : Disk} {writes : List (List String × ByteArray)} (h : d.Covers writes)
    (place : List String) :
    (d.overwrite writes).node? place =
      ((writes.reverse.find? (·.1 == place)).map fun w => .file w.2).or (d.node? place) := by
  induction writes generalizing d with
  | nil => rfl
  | cons w writes ih =>
    obtain ⟨old, hw⟩ := h w (by simp)
    change ((d.put w.1 (.file w.2)).overwrite writes).node? place = _
    rw [ih h.tail, node?_put d (ne_nil_of_file hw), List.reverse_cons, List.find?_append]
    cases writes.reverse.find? (·.1 == place) with
    | some v => rfl
    | none => by_cases hp : w.1 = place <;> simp [hp]

theorem locate_overwrite {d : Disk} {writes : List (List String × ByteArray)} (h : d.Covers writes)
    (p : Path) : (d.overwrite writes).locate p = d.locate p := by
  induction writes generalizing d with
  | nil => rfl
  | cons w writes ih =>
    obtain ⟨old, hw⟩ := h w (by simp)
    exact (ih h.tail).trans (walk_put hw w.2 p.parts _)

theorem FileAt.overwrite {d : Disk} {p : Path} {place : List String} {bytes : ByteArray}
    (hp : d.FileAt p place bytes) {writes : List (List String × ByteArray)}
    (h : d.Covers writes) : ∃ bytes', (d.overwrite writes).FileAt p place bytes' := by
  have hl := (locate_overwrite h p).trans hp.locate
  have hn := node?_overwrite h place
  rw [hp.node] at hn
  cases hf : writes.reverse.find? (·.1 == place) with
  | none => exact ⟨bytes, hl, by rw [hn, hf]; rfl⟩
  | some w => exact ⟨w.2, hl, by rw [hn, hf]; rfl⟩

theorem overwrite_append (d : Disk) (first second : List (List String × ByteArray)) :
    (d.overwrite first).overwrite second = d.overwrite (first ++ second) :=
  (List.foldl_append ..).symm

/-- A write to a place that is written to again later leaves nothing behind. -/
theorem overwrite_put {d : Disk} {place : List String} (hne : place ≠ [])
    (h : (d.node? place).isSome) (n : Node) {writes : List (List String × ByteArray)}
    (again : ∃ w ∈ writes, w.1 = place) :
    (d.put place n).overwrite writes = d.overwrite writes := by
  induction writes generalizing d with
  | nil => simp at again
  | cons w writes ih =>
    change ((d.put place n).put w.1 (.file w.2)).overwrite writes =
      (d.put w.1 (.file w.2)).overwrite writes
    by_cases hw : w.1 = place
    · rw [hw, put_put]
    · rw [put_comm (Ne.symm hw) hne h]
      apply ih
      · rwa [node?_put_of_ne hw]
      · obtain ⟨v, hv, hp⟩ := again
        rcases List.mem_cons.1 hv with rfl | hv
        · exact absurd hp hw
        · exact ⟨v, hv, hp⟩

/-- When the last bytes written to each place are those that were there, the disk is as before. -/
theorem overwrite_eq_self {d : Disk} {writes : List (List String × ByteArray)}
    (hne : ∀ w ∈ writes, w.1 ≠ [])
    (last : ∀ w ∈ writes, ∀ v, writes.reverse.find? (·.1 == w.1) = some v →
      d.node? w.1 = some (.file v.2)) : d.overwrite writes = d := by
  induction writes generalizing d with
  | nil => rfl
  | cons w writes ih =>
    have rest : d.overwrite writes = d := by
      apply ih (fun v hv => hne v (by simp [hv]))
      intro v hv u hu
      apply last v (by simp [hv]) u
      rw [List.reverse_cons, List.find?_append, hu, Option.some_or]
    have hw := hne w (by simp)
    change (d.put w.1 (.file w.2)).overwrite writes = d
    -- The first write is undone by a later one to its place, or it changes nothing.
    by_cases again : ∃ v ∈ writes, v.1 = w.1
    · obtain ⟨v, hv⟩ : ∃ v, (w :: writes).reverse.find? (·.1 == w.1) = some v := by
        apply Option.isSome_iff_exists.1
        simp
      have := last w (by simp) v hv
      rw [overwrite_put hw (by simp [this]) _ again, rest]
    · have : d.node? w.1 = some (.file w.2) := by
        apply last w (by simp) w
        have : writes.reverse.find? (·.1 == w.1) = none := by
          simp only [List.find?_eq_none, List.mem_reverse, beq_iff_eq]
          exact fun v hv hp => again ⟨v, hv, hp⟩
        rw [List.reverse_cons, List.find?_append, this]
        simp
      rw [put_of_node? hw this, rest]

end Codemod.Disk
