import FlakeInputs.Files.Store
import FlakeInputs.Proofs.Outcome

/-!
# Reading what was written

A file that is put into a store is read back at every path that it could be written at, and what is
at the other places stays.
-/

namespace FlakeInputs
namespace Files

variable {files : Files} {place : List Text} {content : ByteArray}

/-! ## Places -/

theorem get?_put_self (files : Files) (place : List Text) (content : ByteArray) :
    (files.put place content).get? place = some (.file content) := by
  rw [get?, put, List.lookup_append, List.lookup_eq_none_iff.2 ?_]
  · simp
  · intro entry hentry
    exact bne_iff_ne.2 (bne_iff_ne.1 (List.mem_filter.1 hentry).2).symm

theorem get?_put_of_ne {other : List Text} (h : other ≠ place) (content : ByteArray) :
    (files.put place content).get? other = files.get? other := by
  have hlookup {keep : List Text × Entry → Bool} (hkeep : ∀ p e, keep (p, e) = (p != place))
      (entries : List (List Text × Entry)) :
      (entries.filter keep).lookup other = entries.lookup other := by
    induction entries with
    | nil => rfl
    | cons entry entries ih =>
      obtain ⟨p, e⟩ := entry
      by_cases hp : p = place
      · have hother : (other == p) = false := by simpa [hp] using h
        rw [List.filter_cons_of_neg (by simp [hkeep, hp]), ih, List.lookup_cons, hother]
      · rw [List.filter_cons_of_pos (by simp [hkeep, hp]), List.lookup_cons, List.lookup_cons, ih]
  rw [get?, put, List.lookup_append, hlookup fun _ _ => rfl]
  have hlast : [(place, Entry.file content)].lookup other = none := by
    rw [List.lookup_cons, beq_eq_false_iff_ne.2 h, List.lookup_nil]
  rw [hlast, Option.or_none]
  rfl

/-! ## Directories -/

/-- A directory is the root, or it is entered, or something is in it. -/
theorem isDirectory_eq_true {q : List Text} : files.isDirectory q = true ↔
    q = [] ∨ (q, .directory) ∈ files.entries ∨
      ∃ entry ∈ files.entries, q <+: entry.1 ∧ entry.1 ≠ q := by
  unfold isDirectory
  rw [Bool.or_eq_true, List.isEmpty_iff, List.any_eq_true]
  apply or_congr_right
  constructor
  · rintro ⟨⟨other, entry⟩, hentry, htest⟩
    by_cases hother : other = q
    · subst hother
      cases entry with
      | directory => exact .inl hentry
      | file content => simp at htest
    · exact .inr ⟨_, hentry, by simpa [hother] using htest, hother⟩
  · rintro (hentry | ⟨⟨other, entry⟩, hentry, hq, hother⟩)
    · exact ⟨_, hentry, by simp⟩
    · exact ⟨_, hentry, by simpa [hother] using hq⟩

/-- The directories on the way to a directory are there, too. -/
theorem isDirectory_above {p q : List Text} (hq : files.isDirectory q = true) (hp : p <+: q) :
    files.isDirectory p = true := by
  by_cases hpq : p = q
  · rw [hpq, hq]
  rw [isDirectory_eq_true] at hq ⊢
  rcases hq with rfl | hentry | ⟨entry, hentry, hq, -⟩
  · exact absurd (List.prefix_nil.1 hp) hpq
  · exact .inr (.inr ⟨_, hentry, hp, Ne.symm hpq⟩)
  · refine .inr (.inr ⟨entry, hentry, hp.trans hq, ?_⟩)
    rintro rfl
    exact hpq (hp.eq_of_length_le hq.length_le)

/-- Names that are followed from a directory lead to a directory or to a place in one. -/
theorem isDirectory_of_follow {standIns : StandIns} {start names : List Text}
    (hstart : files.isDirectory start = true)
    (h : files.follow standIns start names = .ok place) :
    files.isDirectory place = true ∨ files.isDirectory place.dropLast = true := by
  induction names generalizing start with
  | nil =>
    rw [← Except.ok.inj h]
    exact .inl hstart
  | cons name rest ih =>
    simp only [follow] at h
    split at h
    · exact ih (isDirectory_above hstart (List.dropLast_prefix start)) h
    · split at h
      · cases h
      · split at h
        · next hnext =>
          rcases Bool.or_eq_true _ _ ▸ hnext with hlast | hdirectory
          · obtain rfl := List.isEmpty_iff.1 hlast
            rw [← Except.ok.inj h, List.dropLast_concat]
            exact .inr hstart
          · exact ih hdirectory h
        · split at h
          · cases h
          · cases h

/-- A file makes no directory that is not there already, if it is put into one. -/
theorem isDirectory_put (hplace : files.isDirectory place = false)
    (habove : files.isDirectory place.dropLast = true) (content : ByteArray) (q : List Text) :
    (files.put place content).isDirectory q = files.isDirectory q := by
  rw [Bool.eq_iff_iff]
  constructor
  · intro hq
    rcases isDirectory_eq_true.1 hq with rfl | hentry | ⟨entry, hentry, hq, hne⟩
    · exact isDirectory_eq_true.2 (.inl rfl)
    · rcases List.mem_append.1 hentry with hentry | hentry
      · exact isDirectory_eq_true.2 (.inr (.inl (List.mem_filter.1 hentry).1))
      · cases List.mem_singleton.1 hentry
    · rcases List.mem_append.1 hentry with hentry | hentry
      · exact isDirectory_eq_true.2 (.inr (.inr ⟨entry, (List.mem_filter.1 hentry).1, hq, hne⟩))
      · -- The file is below `q`, and so is the directory that it is in, or this is `q`.
        obtain rfl := List.mem_singleton.1 hentry
        obtain ⟨t, rfl⟩ := hq
        have ht : t ≠ [] := fun h => hne (by simp [h])
        refine isDirectory_above habove ?_
        rw [List.dropLast_append_of_ne_nil ht]
        exact List.prefix_append q _
  · intro hq
    have hkept : ∀ entry ∈ files.entries, entry.1 ≠ place →
        entry ∈ (files.put place content).entries :=
      fun entry hentry hne => List.mem_append_left _ (List.mem_filter.2 ⟨hentry, bne_iff_ne.2 hne⟩)
    rcases isDirectory_eq_true.1 hq with rfl | hentry | ⟨entry, hentry, hbelow, hne⟩
    · exact isDirectory_eq_true.2 (.inl rfl)
    · refine isDirectory_eq_true.2 (.inr (.inl (hkept _ hentry ?_)))
      rintro rfl
      simp [hq] at hplace
    · by_cases hentry' : entry.1 = place
      · refine isDirectory_eq_true.2 (.inr (.inr ⟨(place, .file content), ?_, ?_⟩))
        · exact List.mem_append_right _ (List.mem_singleton.2 rfl)
        · rw [← hentry']
          exact ⟨hbelow, hne⟩
      · exact isDirectory_eq_true.2 (.inr (.inr ⟨entry, hkept _ hentry hentry', hbelow, hne⟩))

/-! ## Paths -/

/-- Names lead to the same place in stores with the same directories. -/
theorem follow_eq {files' : Files} (h : ∀ q, files'.isDirectory q = files.isDirectory q)
    {standIns : StandIns} {start names : List Text}
    (hfollow : files.follow standIns start names = .ok place) :
    files'.follow standIns start names = .ok place := by
  induction names generalizing start with
  | nil => exact hfollow
  | cons name rest ih =>
    simp only [follow, h] at hfollow ⊢
    split at hfollow
    · next hname => rw [if_pos hname, ih hfollow]
    · next hname =>
      rw [if_neg hname]
      split at hfollow
      · cases hfollow
      · next hshort =>
        rw [if_neg hshort]
        split at hfollow
        · next hdirectory => rw [if_pos hdirectory, ih hfollow]
        · split at hfollow
          · cases hfollow
          · cases hfollow

variable {around : Surroundings} {path : Path}

/-- How a path leads to a place. -/
theorem locate_eq_ok : files.locate around path = .ok place ↔
    around.standIns.sizeOfName path.text ≤ maxPathBytes ∧
      files.isDirectory (if path.root.isEmpty then around.here else []) = true ∧
      files.follow around.standIns (if path.root.isEmpty then around.here else []) path.names =
        .ok place := by
  unfold locate
  by_cases hsize : maxPathBytes < around.standIns.sizeOfName path.text
  · rw [if_pos hsize]
    simp only [reduceCtorEq, false_iff, not_and]
    omega
  · rw [if_neg hsize]
    cases hstart : files.isDirectory (if path.root.isEmpty then around.here else []) with
    | false => simp
    | true => simp [Nat.not_lt.1 hsize]

/-- A place to write at is in a directory, and is none. -/
theorem placeToWrite_eq_ok (h : files.placeToWrite around path = .ok place) :
    files.locate around path = .ok place ∧ files.isDirectory place = false ∧
      files.isDirectory place.dropLast = true := by
  obtain ⟨place', hlocate, h⟩ := Outcome.bind_eq_ok.1 h
  cases hdirectory : files.isDirectory place' with
  | true =>
    rw [if_pos hdirectory] at h
    cases h
  | false =>
    rw [if_neg (by simp [hdirectory])] at h
    obtain rfl : place' = place := Except.ok.inj h
    obtain ⟨-, hstart, hfollow⟩ := locate_eq_ok.1 hlocate
    refine ⟨hlocate, hdirectory, ?_⟩
    exact (isDirectory_of_follow hstart hfollow).resolve_left (by simp [hdirectory])

/-- A file is read as it was written. -/
theorem read_put (h : files.placeToWrite around path = .ok place) (content : ByteArray) :
    (files.put place content).read around path = .ok content := by
  obtain ⟨hlocate, hplace, habove⟩ := placeToWrite_eq_ok h
  have hsame := isDirectory_put hplace habove content
  have hlocate' : (files.put place content).locate around path = .ok place := by
    obtain ⟨hsize, hstart, hfollow⟩ := locate_eq_ok.1 hlocate
    exact locate_eq_ok.2 ⟨hsize, (hsame _).trans hstart, follow_eq hsame hfollow⟩
  rw [read, hlocate', Outcome.ok_bind, get?_put_self]
  rfl

end Files
end FlakeInputs
