import Mathlib.Data.List.Induction
import SequentCalculus.Proofs.Numbering

/-! # Places — what a change of the disk leaves as it was

    A path is followed through directories to the place it leads to.  Where a disk
    is altered at some places and its directories stay (`Disk.Alters`), the segments
    that led to a directory still lead there, and so does every path that led to a
    file elsewhere (`Disk.Alters.place_file`).

    Putting a file in the place of a path alters the disk there and nowhere else, and
    then the path leads to the file (`Disk.place_put`). -/

namespace SequentCalculus

namespace Disk

variable {d e f : Disk} {P Q : List (List Char) → Prop} {names : List (List Char)} {p : Path}
  {content : List UInt8}

/-! ## What stands at some names -/

/-- A directory stands where there is one and no file. -/
theorem placeOf_eq_directory_iff {names' : List (List Char)} :
    d.placeOf names = .directory names' ↔
      names' = names ∧ d.fileAt? names = none ∧ d.hasDirectory names = true := by
  rcases d.placeOf_cases names with ⟨content, hfile, hplace⟩ | ⟨hfile, hdirectory, hplace⟩ |
    ⟨hfile, hdirectory, hplace⟩
  · simp [hplace, hfile]
  · simp [hplace, hfile, hdirectory, eq_comm]
  · simp [hplace, hdirectory]

/-- A file stands where there is one. -/
theorem placeOf_eq_file_iff {names' : List (List Char)} :
    d.placeOf names = .file names' content ↔ names' = names ∧ d.fileAt? names = some content := by
  rcases d.placeOf_cases names with ⟨content, hfile, hplace⟩ | ⟨hfile, -, hplace⟩ |
    ⟨hfile, -, hplace⟩
  · simp [hplace, hfile, eq_comm]
  · simp [hplace, hfile]
  · simp [hplace, hfile]

/-- Where a path begins depends on the working directory only. -/
theorem origin_congr (h : e.working = d.working) (p : Path) : e.origin p = d.origin p := by
  rw [origin, origin, h]

/-! ## Disks that differ at some places -/

/-- From the first disk to the second, files change only at names with the property,
    and directories stay. -/
structure Alters (P : List (List Char) → Prop) (d e : Disk) : Prop where
  working : e.working = d.working
  files : ∀ names, ¬P names → e.fileAt? names = d.fileAt? names
  directories : ∀ names, d.placeOf names = .directory names → e.placeOf names = .directory names

/-- The second disk has the files of the first, and perhaps more directories. -/
def Extends (d e : Disk) : Prop := Alters (fun _ => False) d e

namespace Alters

theorem refl (P : List (List Char) → Prop) (d : Disk) : Alters P d d :=
  ⟨rfl, fun _ _ => rfl, fun _ h => h⟩

theorem trans (hde : Alters P d e) (hef : Alters P e f) : Alters P d f where
  working := hef.working.trans hde.working
  files := fun names h => (hef.files names h).trans (hde.files names h)
  directories := fun names h => hef.directories names (hde.directories names h)

theorem mono (h : Alters P d e) (hPQ : ∀ names, P names → Q names) : Alters Q d e :=
  ⟨h.working, fun names hQ => h.files names fun hP => hQ (hPQ names hP), h.directories⟩

/-- A segment that leads to a directory still leads there. -/
theorem follow_directory (h : Alters P d e) {s : List Char} {from_ : Place}
    (hd : d.follow s from_ = .directory names) : e.follow s from_ = .directory names := by
  cases from_ with
  | directory above =>
      rcases follow_cases s above with ⟨-, hstay⟩ | ⟨-, hup | hbarred | hname⟩
      · rw [hstay] at hd ⊢
        exact hd
      · rw [hup] at hd ⊢
        exact hd
      · rw [hbarred] at hd
        cases hd
      · rw [hname] at hd ⊢
        obtain ⟨rfl, -⟩ := placeOf_eq_directory_iff.mp hd
        exact h.directories _ hd
  | file _ _ => cases hd
  | vacant _ => cases hd
  | missing => cases hd
  | barred => cases hd

/-- So do several segments. -/
theorem followAll_directory (h : Alters P d e) {ss : List (List Char)} {from_ : Place}
    (hd : d.followAll ss from_ = .directory names) : e.followAll ss from_ = .directory names := by
  induction ss using List.reverseRecOn generalizing names with
  | nil => exact hd
  | append_singleton ss s ih =>
      rw [followAll_concat] at hd ⊢
      cases hfrom : d.followAll ss from_ with
      | directory above =>
          rw [ih hfrom, ← hfrom]
          exact h.follow_directory hd
      | file _ _ | vacant _ | missing | barred =>
          rw [hfrom] at hd
          cases hd

theorem origin_eq (h : Alters P d e) (p : Path) : e.origin p = d.origin p :=
  origin_congr h.working p

end Alters

/-- A path leads to the place of a file if its last segment is a name in a directory
    that the segments above it lead to, and then it does so wherever they lead to the
    same directory. -/
theorem target?_cases (h : d.target? p = some names) :
    ∃ above s directory, p.segments = above ++ [s] ∧ Path.counts s = true ∧
      d.followAll above (d.origin p) = .directory directory ∧ names = directory ++ [s] ∧
      ∀ e : Disk, e.followAll above (e.origin p) = .directory directory →
        e.place p = e.placeOf names := by
  have hp := followable_of_target? h
  rw [target?, place_of_followable hp] at h
  cases hss : p.segments using List.reverseRecOn with
  | nil =>
      rw [hss] at h
      cases h
  | append_singleton above s =>
      rw [hss, followAll_concat] at h
      obtain ⟨directory, hdirectory, hnames, hcounts, hfollow⟩ := target?_follow h
      refine ⟨above, s, directory, rfl, hcounts, hdirectory, hnames, fun e he => ?_⟩
      rw [place_of_followable hp, hss, followAll_concat, he, ← hdirectory]
      exact hfollow e

/-- Segments that lead to a directory lead to the same one on every disk where they
    lead to any. -/
theorem followAll_unique {ss : List (List Char)} {from_ : Place} {names' : List (List Char)}
    (hd : d.followAll ss from_ = .directory names)
    (he : e.followAll ss from_ = .directory names') : names' = names := by
  induction ss using List.reverseRecOn generalizing names names' with
  | nil => exact Place.directory.inj (he.symm.trans hd)
  | append_singleton ss s ih =>
      rw [followAll_concat] at hd he
      cases hfrom : d.followAll ss from_ with
      | directory above =>
          cases hfrom' : e.followAll ss from_ with
          | directory above' =>
              -- both disks are in one directory by now, and the segment decides the next
              obtain rfl := ih hfrom hfrom'
              rw [hfrom] at hd
              rw [hfrom'] at he
              rcases follow_cases s above' with ⟨-, h⟩ | ⟨-, h | h | h⟩
              · exact Place.directory.inj ((he.symm.trans (h e)).trans ((h d).symm.trans hd))
              · exact Place.directory.inj ((he.symm.trans (h e)).trans ((h d).symm.trans hd))
              · cases (h d).symm.trans hd
              · obtain ⟨rfl, -⟩ := placeOf_eq_directory_iff.mp ((h d).symm.trans hd)
                exact (placeOf_eq_directory_iff.mp ((h e).symm.trans he)).1
          | file _ _ | vacant _ | missing | barred =>
              rw [hfrom'] at he
              cases he
      | file _ _ | vacant _ | missing | barred =>
          rw [hfrom] at hd
          cases hd

/-- A path has the same place for a file on every disk where it has one. -/
theorem target?_unique {names' : List (List Char)} (hworking : e.working = d.working)
    (hd : d.target? p = some names) (he : e.target? p = some names') : names' = names := by
  obtain ⟨above, s, directory, hsegments, -, hdirectory, rfl, -⟩ := target?_cases hd
  obtain ⟨above', s', directory', hsegments', -, hdirectory', rfl, -⟩ := target?_cases he
  obtain ⟨rfl, hs⟩ := List.append_inj' (hsegments.symm.trans hsegments') rfl
  rw [origin_congr hworking] at hdirectory'
  rw [followAll_unique hdirectory hdirectory', hs]

/-- Where the directories stay, a path that led to the place of a file leads to what
    stands there now. -/
theorem Alters.place_eq (h : Alters P d e) (hd : d.target? p = some names) :
    e.place p = e.placeOf names := by
  obtain ⟨above, s, directory, -, -, hdirectory, -, hplace⟩ := target?_cases hd
  refine hplace e ?_
  rw [h.origin_eq]
  exact h.followAll_directory hdirectory

theorem target?_of_place_file (h : d.place p = .file names content) :
    d.target? p = some names := by
  rw [target?, h]
  rfl

/-- The path to the place of a file leads to what stands there. -/
theorem placeOf_of_target? (h : d.target? p = some names) : d.place p = d.placeOf names :=
  (Alters.refl (fun _ => False) d).place_eq h

/-- A path that led to a file still leads there, unless the file was altered. -/
theorem Alters.place_file (h : Alters P d e) (hnames : ¬P names)
    (hd : d.place p = .file names content) : e.place p = .file names content := by
  have htarget := target?_of_place_file hd
  rw [h.place_eq htarget, placeOf_eq_file_iff, h.files names hnames, ← placeOf_eq_file_iff,
    ← placeOf_of_target? htarget]
  exact hd

/-! ## Writing -/

/-- Dropping the entries with another key changes nothing. -/
theorem lookup_filter_ne {α β : Type} [BEq α] [LawfulBEq α] {k k' : α} (h : k ≠ k')
    (entries : List (α × β)) :
    (entries.filter (·.1 != k')).lookup k = entries.lookup k := by
  induction entries with
  | nil => rfl
  | cons entry entries ih =>
      obtain ⟨k'', b⟩ := entry
      by_cases hkey : k'' = k'
      · rw [List.filter_cons_of_neg (by simp [hkey]), ih, List.lookup_cons, hkey,
          beq_false_of_ne h]
      · rw [List.filter_cons_of_pos (by simp [hkey]), List.lookup_cons, List.lookup_cons, ih]

theorem fileAt?_put_self (d : Disk) (names : List (List Char)) (content : List UInt8) :
    (d.put names content).fileAt? names = some content := by
  rw [fileAt?, put, List.lookup_cons, beq_self_eq_true]

/-- A file that is put leaves those at other names. -/
theorem fileAt?_put_of_ne {names' : List (List Char)} (h : names' ≠ names) (d : Disk)
    (content : List UInt8) : (d.put names content).fileAt? names' = d.fileAt? names' := by
  rw [fileAt?, put, List.lookup_cons, beq_false_of_ne h]
  exact lookup_filter_ne h d.files

/-- A file that is put where no directory stands alters nothing else. -/
theorem alters_put (h : d.placeOf names ≠ .directory names) (content : List UInt8) :
    Alters (· = names) d (d.put names content) where
  working := rfl
  files := fun _ hne => fileAt?_put_of_ne hne d content
  directories := by
    intro names' hd
    have hne : names' ≠ names := by
      rintro rfl
      exact h hd
    rw [placeOf_eq_directory_iff] at hd ⊢
    rw [fileAt?_put_of_ne hne]
    exact hd

/-- No directory stands in the place of a file. -/
theorem placeOf_ne_directory_of_target? (h : d.target? p = some names) :
    d.placeOf names ≠ .directory names := by
  intro hplace
  rw [target?, placeOf_of_target? h, hplace] at h
  cases h

/-- A path that leads to some names where no directory stands has its place there. -/
theorem target?_of_placeOf (hplace : d.place p = d.placeOf names)
    (h : d.placeOf names ≠ .directory names) : d.target? p = some names := by
  rw [target?, hplace]
  rcases d.placeOf_cases names with ⟨_, -, hplace'⟩ | ⟨-, -, hplace'⟩ | ⟨-, -, hplace'⟩
  · rw [hplace']
    rfl
  · exact absurd hplace' h
  · rw [hplace']
    rfl

/-- A file that is put in the place of a path stands there. -/
theorem place_put (h : d.target? p = some names) (content : List UInt8) :
    (d.put names content).place p = .file names content := by
  have halters := alters_put (placeOf_ne_directory_of_target? h) content
  rw [halters.place_eq h, placeOf_eq_file_iff]
  exact ⟨rfl, fileAt?_put_self d names content⟩

/-- Writing puts the file in the place of the path, if it has one. -/
theorem write_eq (d : Disk) (p : Path) (content : List UInt8) :
    d.write p content = (d.target? p).map fun names => d.put names content := by
  rw [write, target?]
  cases d.place p <;> rfl

end Disk

end SequentCalculus
