import SequentCalculus.Proofs.Ancestors
import SequentCalculus.Proofs.Places
import SequentCalculus.Proofs.Storage
import SequentCalculus.Storage.File

/-! # Saved files — what stands on a disk after saving

    Saving a file makes the directories that are missing on the way to it and puts
    the file in its place (`Disk.save_cases`).  A file is refused only if no
    directories, however many, would make room for it (`Disk.save_eq_false_iff`): the
    directories above it are made from the top on, each in one that is there by then.

    Trees that are saved under the numbers of a path stand apart from each other, so
    in the end each of them stands in its file (`Disk.Holds`). -/

namespace SequentCalculus

namespace Disk

variable {d e f : Disk} {names : List (List Char)} {p : Path}

/-! ## Making directories -/

/-- The disk with a directory at the given names. -/
def withDirectory (d : Disk) (names : List (List Char)) : Disk :=
  { d with directories := names :: d.directories }

/-- A new directory is there beside the old ones. -/
theorem hasDirectory_withDirectory (d : Disk) (names names' : List (List Char)) :
    (d.withDirectory names).hasDirectory names' = (names' == names || d.hasDirectory names') := by
  show (names'.isPrefixOf d.working || (names :: d.directories).contains names') =
    (names' == names || (names'.isPrefixOf d.working || d.directories.contains names'))
  rw [List.contains_cons]
  cases names' == names <;> simp

theorem extends_withDirectory (d : Disk) (names : List (List Char)) :
    d.Extends (d.withDirectory names) where
  working := rfl
  files := fun _ _ => rfl
  directories := by
    intro names' hd
    rw [placeOf_eq_directory_iff] at hd ⊢
    rw [hasDirectory_withDirectory, hd.2.2, Bool.or_true]
    exact ⟨rfl, hd.2.1, rfl⟩

/-- A directory is made where nothing stands, and nothing is done where one does. -/
theorem makeDirectory_cases (d : Disk) (p : Path) :
    (d.makeDirectory p = (d, true) ∧ (p.text = "" ∨ ∃ names, d.place p = .directory names)) ∨
    (∃ names, d.place p = .vacant names ∧ d.makeDirectory p = (d.withDirectory names, true)) ∨
    (d.makeDirectory p = (d, false) ∧ p.text ≠ "" ∧ (∀ names, d.place p ≠ .directory names) ∧
      ∀ names, d.place p ≠ .vacant names) := by
  rw [makeDirectory]
  by_cases hempty : p.text.isEmpty = true
  · exact .inl ⟨if_pos hempty, .inl (String.isEmpty_iff.mp hempty)⟩
  · have hne : p.text ≠ "" := fun h => hempty (String.isEmpty_iff.mpr h)
    rw [if_neg hempty]
    cases hplace : d.place p with
    | directory names => exact .inl ⟨rfl, .inr ⟨names, rfl⟩⟩
    | vacant names => exact .inr (.inl ⟨names, rfl, rfl⟩)
    | file _ _ | missing | barred => exact .inr (.inr ⟨rfl, hne, nofun, nofun⟩)

theorem extends_makeDirectory (d : Disk) (p : Path) : d.Extends (d.makeDirectory p).1 := by
  rcases d.makeDirectory_cases p with ⟨h, -⟩ | ⟨names, -, h⟩ | ⟨h, -⟩
  · rw [h]
    exact .refl _ d
  · rw [h]
    exact d.extends_withDirectory names
  · rw [h]
    exact .refl _ d

/-- Making directories leaves everything else, whether it succeeds or not. -/
theorem extends_makeDirectories (d : Disk) (p : Path) (above : List Path) :
    d.Extends (d.makeDirectories p above).1 := by
  induction above generalizing p with
  | nil => exact d.extends_makeDirectory p
  | cons q above ih =>
      have hq := ih q
      rw [makeDirectories]
      split
      · split
        · rename_i d' heq
          rw [heq] at hq
          exact hq.trans (d'.extends_makeDirectory p)
        · rename_i d' heq
          rw [heq] at hq
          exact hq
      · exact d.extends_makeDirectory p

/-- So does preparing the way to a file. -/
theorem extends_prepare {isMade : Bool} (h : d.prepare p = (e, isMade)) : d.Extends e := by
  have hextends : d.Extends (d.prepare p).1 := by
    rw [prepare]
    split
    · exact d.extends_makeDirectories _ _
    · exact .refl _ d
  rw [h] at hextends
  exact hextends

/-- Saving makes the directories above the file, and then it puts the file in its
    place or does nothing more. -/
theorem save_cases (d : Disk) (p : Path) (content : List UInt8) :
    (∃ d' names, d.prepare p = (d', true) ∧ d'.target? p = some names ∧
      d.save p content = (d'.put names content, true)) ∨
    ∃ d' isMade, d.prepare p = (d', isMade) ∧ (isMade = true → d'.target? p = none) ∧
      d.save p content = (d', false) := by
  rw [save]
  cases hprepare : d.prepare p with
  | mk d' isMade =>
      cases isMade with
      | false => exact .inr ⟨d', false, rfl, nofun, rfl⟩
      | true =>
          cases htarget : d'.target? p with
          | none =>
              refine .inr ⟨d', true, rfl, fun _ => htarget, ?_⟩
              simp only [write_eq, htarget, Option.map_none]
          | some names =>
              refine .inl ⟨d', names, rfl, htarget, ?_⟩
              simp only [write_eq, htarget, Option.map_some]

end Disk

/-! ## Room for a file -/

namespace Disk

variable {d e f : Disk} {names : List (List Char)} {p q : Path} {content : List UInt8}

/-- The path leads to a directory; the empty path leads to the working directory. -/
def Reaches (d : Disk) (q : Path) (names : List (List Char)) : Prop :=
  q.text = "" ∧ names = d.working ∨ d.place q = .directory names

/-- Segments that do not count stay in a directory, and lead to none from elsewhere. -/
theorem followAll_append_blank {blanks : List (List Char)}
    (h : ∀ b ∈ blanks, Path.counts b = false) (d : Disk) (ss : List (List Char)) (from_ : Place) :
    d.followAll (ss ++ blanks) from_ = .directory names ↔
      d.followAll ss from_ = .directory names := by
  induction blanks using List.reverseRecOn generalizing names with
  | nil => rw [List.append_nil]
  | append_singleton blanks b ih =>
      have hb := h b (List.mem_append_right _ List.mem_cons_self)
      have hstep : ∀ place : Place,
          d.follow b place = .directory names ↔ place = .directory names := by
        intro place
        cases place with
        | directory above =>
            rcases follow_cases b above with ⟨-, hstay⟩ | ⟨hcounts, -⟩
            · rw [hstay]
            · rw [hb] at hcounts
              cases hcounts
        | file _ _ | vacant _ | missing | barred => exact ⟨nofun, nofun⟩
      rw [← List.append_assoc, followAll_concat, hstep]
      exact ih fun b hb => h b (List.mem_append_left _ hb)

/-- The root is there on every disk. -/
theorem place_root (d : Disk) : d.place ⟨"/"⟩ = .directory [] := by
  rw [place_of_followable ⟨by decide, by decide, by decide⟩]
  rfl

/-- A path begins where the top above it leads. -/
theorem reaches_top (d : Disk) (p : Path) :
    d.origin p = .directory names ↔ d.Reaches p.top names := by
  rw [origin, Path.top, Reaches]
  cases p.isAbsolute with
  | true =>
      rw [if_pos rfl, if_pos rfl, place_root]
      simp
  | false =>
      have hempty : d.place ⟨""⟩ = .missing := rfl
      rw [if_neg Bool.false_ne_true, if_neg Bool.false_ne_true, hempty]
      simp [eq_comm]

/-- The segments before the last part of a path lead to a directory exactly if the path
    above it does, on every disk. -/
theorem exists_above {front : List (List Char × Nat)} {x : List Char × Nat} (hp : p.Followable)
    (hsegments : Path.segmentsFrom 0 p.text.toList = front ++ [x]) (hx : Path.IsPart front x.1) :
    ∃ q : Path, p.ancestors = q :: q.ancestors ∧ q.EndsInPart ∧
      ∀ (d : Disk) names, d.followAll (front.map (·.1)) (d.origin p) = .directory names ↔
        d.Reaches q names := by
  have hmap : ∀ {bs : List (List Char × Nat)}, (∀ b ∈ bs, Path.counts b.1 = false) →
      ∀ b ∈ bs.map (·.1), Path.counts b = false := by
    intro bs hbs b hb
    obtain ⟨y, hy, rfl⟩ := List.mem_map.mp hb
    exact hbs y hy
  -- the path above is the top, or it ends in the part before
  rcases Path.exists_parent hsegments hx with ⟨htop, hblank⟩ |
    ⟨front', y, between, rfl, hy, hblank, hne, hparent, habsolute, hancestors⟩
  · refine ⟨p.top, by rw [htop, p.ancestors_top], ?_, fun d names => ?_⟩
    · rw [Path.EndsInPart, Path.top]
      cases p.isAbsolute <;> simp
    · rw [← reaches_top, ← List.nil_append (front.map _), followAll_append_blank (hmap hblank)]
      exact Iff.rfl
  · have hq := hp.upTo hne
    refine ⟨p.upTo y.2, hancestors, .inr ⟨hq, front', y, hparent, hy⟩, fun d names => ?_⟩
    have hsegs : (p.upTo y.2).segments = front'.map (·.1) ++ [y.1] := by
      rw [Path.segments, hparent, List.map_append]
      rfl
    rw [Reaches, or_iff_right (fun h => hne h.1), place_of_followable hq, hsegs, origin, origin,
      habsolute, List.map_append, List.map_cons, ← List.singleton_append, ← List.append_assoc,
      followAll_append_blank (hmap hblank)]

/-- Where more directories lead to a directory, fewer lead there, to a place for it or
    nowhere yet. -/
theorem Extends.followAll_cases (h : d.Extends e) {ss : List (List Char)} {from_ : Place}
    (he : e.followAll ss from_ = .directory names) :
    d.followAll ss from_ = .directory names ∨ d.followAll ss from_ = .vacant names ∨
      d.followAll ss from_ = .missing := by
  induction ss using List.reverseRecOn generalizing names with
  | nil => exact .inl he
  | append_singleton ss s ih =>
      rw [followAll_concat] at he ⊢
      cases hfrom : e.followAll ss from_ with
      | directory above =>
          rw [hfrom] at he
          rcases ih hfrom with hd | hd | hd
          · rw [hd]
            rcases follow_cases s above with ⟨-, hstay⟩ | ⟨-, hup | hbarred | hname⟩
            · rw [hstay] at he ⊢
              exact .inl he
            · rw [hup] at he ⊢
              exact .inl he
            · rw [hbarred] at he
              cases he
            · rw [hname] at he ⊢
              -- no file stands where the other disk has a directory, as the files are the same
              obtain ⟨rfl, hfile, -⟩ := placeOf_eq_directory_iff.mp he
              rw [h.files _ not_false] at hfile
              rcases d.placeOf_cases (above ++ [s]) with ⟨content, hfile', -⟩ | ⟨-, -, hplace⟩ |
                ⟨-, -, hplace⟩
              · rw [hfile] at hfile'
                cases hfile'
              · exact .inl hplace
              · exact .inr (.inl hplace)
          · rw [hd]
            exact .inr (.inr rfl)
          · rw [hd]
            exact .inr (.inr rfl)
      | file _ _ | vacant _ | missing | barred =>
          rw [hfrom] at he
          cases he

/-- A directory that is not missing its way can be made, if another disk has it. -/
theorem exists_makeDirectory (h : d.Extends e) (hq : q.Followable)
    (he : e.place q = .directory names) (hd : d.place q ≠ .missing) :
    ∃ d', d.makeDirectory q = (d', true) ∧ d'.Extends e ∧ d'.place q = .directory names := by
  rw [place_of_followable hq, h.origin_eq] at he
  have hcases := h.followAll_cases he
  rw [← place_of_followable hq] at hcases
  rcases d.makeDirectory_cases q with ⟨hmake, hempty | ⟨names', hplace⟩⟩ |
    ⟨names', hplace, hmake⟩ | ⟨-, -, hdirectory, hvacant⟩
  · exact absurd hempty hq.ne_empty
  · rcases hcases with hd' | hd' | hd'
    · exact ⟨d, hmake, h, hd'⟩
    · rw [hplace] at hd'
      cases hd'
    · exact absurd hd' hd
  · have htarget : d.target? q = some names' := by
      rw [target?, hplace]
      rfl
    obtain rfl : names' = names := by
      rcases hcases with hd' | hd' | hd'
      · rw [hplace] at hd'
        cases hd'
      · rw [hplace] at hd'
        exact Place.vacant.inj hd'
      · exact absurd hd' hd
    -- the new directory is one of those that the other disk has
    have hother : e.placeOf names' = .directory names' := by
      rw [← h.place_eq htarget, place_of_followable hq, h.origin_eq]
      exact he
    refine ⟨d.withDirectory names', hmake, ⟨h.working, h.files, ?_⟩, ?_⟩
    · intro names hnames
      obtain ⟨-, hfile, hhas⟩ := placeOf_eq_directory_iff.mp hnames
      rw [hasDirectory_withDirectory, Bool.or_eq_true, beq_iff_eq] at hhas
      rcases hhas with rfl | hhas
      · exact hother
      · exact h.directories _ (placeOf_eq_directory_iff.mpr ⟨rfl, hfile, hhas⟩)
    · have hfile : d.fileAt? names' = none := by
        rw [← h.files _ not_false]
        exact (placeOf_eq_directory_iff.mp hother).2.1
      rw [(d.extends_withDirectory names').place_eq htarget, placeOf_eq_directory_iff,
        hasDirectory_withDirectory, beq_self_eq_true]
      exact ⟨rfl, hfile, rfl⟩
  · rcases hcases with hd' | hd' | hd'
    · exact absurd hd' (hdirectory names)
    · exact absurd hd' (hvacant names)
    · exact absurd hd' hd

/-- From a directory every segment leads somewhere. -/
theorem follow_directory_ne_missing (d : Disk) (s : List Char) (above : List (List Char)) :
    d.follow s (.directory above) ≠ .missing := by
  rcases follow_cases s above with ⟨-, h⟩ | ⟨-, h | h | h⟩
  · rw [h]
    nofun
  · rw [h]
    nofun
  · rw [h]
    nofun
  · rw [h]
    rcases d.placeOf_cases (above ++ [s]) with ⟨_, -, hplace⟩ | ⟨-, -, hplace⟩ | ⟨-, -, hplace⟩ <;>
      rw [hplace] <;> nofun

/-- Only a missing way needs directories above. -/
theorem makeDirectories_of_place_ne_missing (h : d.place q ≠ .missing) (above : List Path) :
    d.makeDirectories q above = d.makeDirectory q := by
  cases above with
  | nil => rfl
  | cons q' above =>
      rw [makeDirectories]
      split
      · rename_i hmissing
        exact absurd hmissing h
      · rfl

/-- The working directory and the root need not be made. -/
theorem makeDirectories_top (h : d.Extends e) (hq : q.text = "" ∨ q.text = "/")
    (he : e.Reaches q names) :
    d.makeDirectories q q.ancestors = (d, true) ∧ d.Reaches q names := by
  obtain ⟨text⟩ := q
  rcases hq with rfl | rfl
  · refine ⟨rfl, ?_⟩
    rcases he with ⟨-, rfl⟩ | hplace
    · exact .inl ⟨rfl, h.working⟩
    · cases hplace
  · rcases he with ⟨hempty, -⟩ | hplace
    · exact absurd hempty (by decide)
    · rw [place_root] at hplace
      rw [Reaches, place_root, makeDirectories_of_place_ne_missing (by rw [place_root]; nofun),
        makeDirectory, place_root]
      exact ⟨rfl, .inr hplace⟩

/-- A directory can be made with those above it, if another disk has them all. -/
theorem exists_makeDirectories (h : d.Extends e) (hq : q.EndsInPart) (he : e.Reaches q names) :
    ∃ d', d.makeDirectories q q.ancestors = (d', true) ∧ d'.Extends e ∧ d'.Reaches q names := by
  generalize habove : q.ancestors = above
  induction above generalizing q names with
  | nil =>
      rcases hq with htop | ⟨hfollow, front, x, hsegments, hx⟩
      · obtain ⟨hmade, hreached⟩ := makeDirectories_top h htop he
        exact ⟨d, habove ▸ hmade, h, hreached⟩
      · obtain ⟨q', hancestors, -⟩ := exists_above hfollow hsegments hx
        rw [habove] at hancestors
        cases hancestors
  | cons q' above ih =>
      rcases hq with htop | ⟨hfollow, front, x, hsegments, hx⟩
      · obtain ⟨hmade, hreached⟩ := makeDirectories_top h htop he
        exact ⟨d, habove ▸ hmade, h, hreached⟩
      · obtain ⟨q'', hancestors, hends, hreaches⟩ := exists_above hfollow hsegments hx
        rw [habove] at hancestors
        obtain ⟨rfl, rfl⟩ := List.cons.inj hancestors
        have hplace := he.resolve_left fun hempty => hfollow.ne_empty hempty.1
        by_cases hmissing : d.place q = .missing
        · -- the way is missing, so the directories above come first
          have hsegs : q.segments = front.map (·.1) ++ [x.1] := by
            rw [Path.segments, hsegments, List.map_append]
            rfl
          have hlast : ∀ d : Disk, d.place q =
              d.follow x.1 (d.followAll (front.map (·.1)) (d.origin q)) := by
            intro d
            rw [place_of_followable hfollow, hsegs, followAll_concat]
          obtain ⟨above, habove⟩ :
              ∃ above, e.followAll (front.map (·.1)) (e.origin q) = .directory above := by
            rw [hlast] at hplace
            cases hfrom : e.followAll (front.map (·.1)) (e.origin q) with
            | directory above => exact ⟨above, rfl⟩
            | file _ _ | vacant _ | missing | barred =>
                rw [hfrom] at hplace
                cases hplace
          -- then the way is there, and the last directory is made in the one above
          obtain ⟨d₁, hmade, hextends, hreached⟩ := ih hends ((hreaches e above).mp habove) rfl
          have hthere : d₁.place q ≠ .missing := by
            rw [hlast, (hreaches d₁ above).mpr hreached]
            exact d₁.follow_directory_ne_missing x.1 above
          obtain ⟨d₂, hmake, hextends₂, hplace₂⟩ :=
            exists_makeDirectory hextends hfollow hplace hthere
          refine ⟨d₂, ?_, hextends₂, .inr hplace₂⟩
          rw [makeDirectories, hmissing]
          simp only [hmade, hmake]
        · obtain ⟨d', hmake, hextends, hplace'⟩ := exists_makeDirectory h hfollow hplace hmissing
          refine ⟨d', ?_, hextends, .inr hplace'⟩
          rw [makeDirectories_of_place_ne_missing hmissing, hmake]

/-- Where more directories make room for a file, the way to it is prepared. -/
theorem exists_prepare (h : d.Extends e) (he : e.target? p = some names) :
    ∃ d', d.prepare p = (d', true) ∧ d'.Extends e ∧ d'.target? p = some names := by
  have hp := followable_of_target? he
  obtain ⟨above, s, directory, hsegs, hcounts, hdirectory, rfl, hplace⟩ := target?_cases he
  -- the segments with their ends
  obtain ⟨front, xs, hsegments, rfl, hxs⟩ := List.map_eq_append_iff.mp hsegs
  obtain ⟨x, rfl, rfl⟩ := List.map_eq_singleton_iff.mp hxs
  obtain ⟨q, hancestors, hends, hreaches⟩ := exists_above hp hsegments (.inl hcounts)
  obtain ⟨d', hmade, hextends, hreached⟩ :=
    exists_makeDirectories h hends ((hreaches e directory).mp hdirectory)
  refine ⟨d', ?_, hextends, ?_⟩
  · rw [prepare, hancestors]
    exact hmade
  · refine target?_of_placeOf (hplace d' ((hreaches d' directory).mpr hreached)) ?_
    exact fun hplace' => placeOf_ne_directory_of_target? he (hextends.directories _ hplace')

/-- No directories make room for a file under the path. -/
def Refuses (d : Disk) (p : Path) : Prop := ∀ e, d.Extends e → e.target? p = none

/-- A file is refused exactly if no directories make room for it. -/
theorem save_eq_false_iff (d : Disk) (p : Path) (content : List UInt8) :
    (d.save p content).2 = false ↔ d.Refuses p := by
  constructor
  · intro hsave e hde
    cases he : e.target? p with
    | none => rfl
    | some names =>
        obtain ⟨d', hprepare, -, htarget⟩ := exists_prepare hde he
        rcases d.save_cases p content with ⟨_, _, -, -, hsave'⟩ | ⟨d'', isMade, hprepare', hnone, -⟩
        · rw [hsave'] at hsave
          cases hsave
        · rw [hprepare] at hprepare'
          cases hprepare'
          rw [hnone rfl] at htarget
          cases htarget
  · intro hrefuses
    rcases d.save_cases p content with ⟨d', names, hprepare, htarget, -⟩ | ⟨_, _, -, -, hsave⟩
    · rw [hrefuses d' (extends_prepare hprepare)] at htarget
      cases htarget
    · rw [hsave]

end Disk

/-! ## Trees in files -/

/-- The tree is given back by files of the format: it has the shape that the reader
    asks for, and it is not too large for it. -/
def ProofTree.Fits (t : ProofTree) : StorageFormat → Prop
  | .text => (∀ u, t.HasNode u → u.IsShaped ∧ u.root.WellNamed) ∧
      t.toRecord.nesting ≤ Toml.nestingLimit
  | .binary => t.check = .ok () ∧ t.encode.length < Cbor.lengthLimit ∧ t.toItem.levels ≤ 128

/-- A tree that fits is read from the file that stores it. -/
theorem ProofTree.load_stored {t : ProofTree} {p : Path} (h : t.Fits (StorageFormat.ofPath p)) :
    load p (.file (t.stored p)) = .ok t := by
  cases hformat : StorageFormat.ofPath p with
  | text =>
      rw [hformat] at h
      simp only [load, stored, hformat, Entry.text, Entry.bytes, utf8Text?_utf8Bytes]
      exact ofText_toText_eq_ok_iff.mpr ⟨h.2, t.toTree_toRecord h.1⟩
  | binary =>
      rw [hformat] at h
      obtain ⟨hcheck, hlength, hlevels⟩ := h
      simp only [load, stored, hformat, Entry.bytes]
      rw [decode_encode_eq hcheck hlength, if_pos hlevels]

namespace Disk

variable {d e e' f : Disk} {p : Path} {content : List UInt8}

theorem entry_eq_file_iff :
    d.entry p = .file content ↔ ∃ names, d.place p = .file names content := by
  rw [entry]
  cases d.place p <;> simp

/-- Trees have been saved under the numbers of a path, from the first disk to the
    second.  Each numbered file holds its tree and gives it back, if it fits; all
    other files are as they were, and every directory is still there. -/
structure Holds (base : Path) (total : Nat) (ts : List ProofTree) (d e : Disk) : Prop where
  content : ∀ i t, ts[i]? = some t →
    e.entry (base.numbered i total) = .file (t.stored (base.numbered i total))
  readBack : ∀ i t, ts[i]? = some t → t.Fits (StorageFormat.ofPath (base.numbered i total)) →
    ProofTree.load (base.numbered i total) (e.entry (base.numbered i total)) = .ok t
  others : Alters (fun names => ∃ i < ts.length, e.target? (base.numbered i total) = some names) d e

namespace Holds

variable {base : Path} {total : Nat} {ts : List ProofTree}

/-- What is read back follows from what the files hold. -/
theorem of_content
    (hcontent : ∀ i t, ts[i]? = some t →
      e.entry (base.numbered i total) = .file (t.stored (base.numbered i total)))
    (hothers : Alters
      (fun names => ∃ i < ts.length, e.target? (base.numbered i total) = some names) d e) :
    Holds base total ts d e := by
  refine ⟨hcontent, fun i t ht hfits => ?_, hothers⟩
  rw [hcontent i t ht]
  exact ProofTree.load_stored hfits

theorem nil (base : Path) (total : Nat) (d : Disk) : Holds base total [] d d :=
  of_content (fun i t h => by cases h) (.refl _ d)

section Elsewhere

variable {P : List (List Char) → Prop} (h : Holds base total ts d e) (halters : Alters P e e')
  (helsewhere : ∀ i < ts.length, ∀ names, e.target? (base.numbered i total) = some names → ¬P names)

include h halters helsewhere

/-- A change elsewhere leaves the numbered files where they are. -/
theorem place_of_alters {i : Nat} {t : ProofTree} (ht : ts[i]? = some t) :
    ∃ names, e.target? (base.numbered i total) = some names ∧
      e'.place (base.numbered i total) = .file names (t.stored (base.numbered i total)) := by
  obtain ⟨names, hplace⟩ := entry_eq_file_iff.mp (h.content i t ht)
  have htarget := target?_of_place_file hplace
  have hi : i < ts.length := (List.getElem?_eq_some_iff.mp ht).1
  exact ⟨names, htarget, halters.place_file (helsewhere i hi names htarget) hplace⟩

/-- So the files touched before are known by the same paths afterwards. -/
theorem others_of_alters :
    Alters (fun names => ∃ i < ts.length, e'.target? (base.numbered i total) = some names) d e := by
  refine h.others.mono ?_
  rintro names ⟨i, hi, hnames⟩
  obtain ⟨names', htarget, hplace⟩ :=
    h.place_of_alters halters helsewhere (List.getElem?_eq_getElem hi)
  rw [htarget] at hnames
  exact ⟨i, hi, hnames ▸ target?_of_place_file hplace⟩

end Elsewhere

/-- More directories leave everything as it is. -/
theorem extends_right (h : Holds base total ts d e) (hextends : e.Extends e') :
    Holds base total ts d e' := by
  refine of_content (fun i t ht => ?_) ?_
  · obtain ⟨names, -, hplace⟩ := h.place_of_alters hextends (fun _ _ _ _ => not_false) ht
    exact entry_eq_file_iff.mpr ⟨names, hplace⟩
  · exact (h.others_of_alters hextends fun _ _ _ _ => not_false).trans
      (hextends.mono fun _ hfalse => hfalse.elim)

/-- A file under the next number leaves those before it as they are, since paths with
    different numbers lead to different places. -/
theorem put_next (h : Holds base total ts d e) (hlt : ts.length < total) (t : ProofTree)
    {names : List (List Char)}
    (htarget : e.target? (base.numbered ts.length total) = some names) :
    Holds base total (ts ++ [t]) d
      (e.put names (t.stored (base.numbered ts.length total))) := by
  have halters := alters_put (placeOf_ne_directory_of_target? htarget)
    (t.stored (base.numbered ts.length total))
  have hnew := place_put htarget (t.stored (base.numbered ts.length total))
  -- the earlier files stand elsewhere
  have helsewhere : ∀ i < ts.length, ∀ names',
      e.target? (base.numbered i total) = some names' → names' ≠ names := by
    rintro i hi names' hnames' rfl
    have hsame := eq_of_target?_numbered (by omega) hnames' htarget
    omega
  refine of_content ?_ ?_
  · intro i u hu
    rcases Nat.lt_or_ge i ts.length with hi | hi
    · rw [List.getElem?_append_left hi] at hu
      obtain ⟨names', -, hplace⟩ := h.place_of_alters halters helsewhere hu
      exact entry_eq_file_iff.mpr ⟨names', hplace⟩
    · have hlast := (List.getElem?_eq_some_iff.mp hu).1
      rw [List.length_append, List.length_singleton] at hlast
      obtain rfl : i = ts.length := by omega
      rw [List.getElem?_append_right hi, Nat.sub_self] at hu
      obtain rfl : t = u := Option.some.inj hu
      exact entry_eq_file_iff.mpr ⟨names, hnew⟩
  · refine ((h.others_of_alters halters helsewhere).mono ?_).trans (halters.mono ?_)
    · rintro names' ⟨i, hi, hnames'⟩
      rw [List.length_append]
      exact ⟨i, by omega, hnames'⟩
    · rintro _ rfl
      rw [List.length_append]
      exact ⟨ts.length, by simp, target?_of_place_file hnew⟩

end Holds

/-! ## Saving one tree after the other -/

/-- With more directories there is room for files under the first numbers of a path. -/
structure HasRoom (base : Path) (total count : Nat) (d f : Disk) : Prop where
  extended : d.Extends f
  room : ∀ i < count, ∃ names, f.target? (base.numbered i total) = some names

/-- Saving trees under the numbers of a path has led from the first disk to the
    second.  It holds the trees, and it has only the directories that it needs. -/
structure Saved (base : Path) (total : Nat) (ts : List ProofTree) (d e : Disk) : Prop extends
    Holds base total ts d e where
  least : ∀ f, HasRoom base total ts.length d f → ∀ names,
    e.placeOf names = .directory names → f.placeOf names = .directory names

/-- The files of a disk with the directories of another. -/
def withDirectoriesOf (e f : Disk) : Disk := { f with files := e.files }

section Room

variable {base : Path} {total : Nat} {ts : List ProofTree}

theorem HasRoom.mono {n m : Nat} (h : HasRoom base total n d f) (hle : m ≤ n) :
    HasRoom base total m d f :=
  ⟨h.extended, fun i hi => h.room i (Nat.lt_of_lt_of_le hi hle)⟩

/-- Where there is room for the files of trees, no directory stands in the place of
    one of them. -/
theorem Holds.fileAt?_cases (h : Holds base total ts d e)
    (hf : HasRoom base total ts.length d f) (names : List (List Char)) :
    e.fileAt? names = f.fileAt? names ∨
      e.fileAt? names ≠ none ∧ f.placeOf names ≠ .directory names := by
  by_cases htouched : ∃ i < ts.length, e.target? (base.numbered i total) = some names
  · obtain ⟨i, hi, htarget⟩ := htouched
    obtain ⟨names', hplace⟩ := entry_eq_file_iff.mp (h.content i _ (List.getElem?_eq_getElem hi))
    obtain ⟨names'', htarget'⟩ := hf.room i hi
    obtain rfl : names' = names :=
      Option.some.inj ((target?_of_place_file hplace).symm.trans htarget)
    obtain rfl : names'' = names' := target?_unique
      (hf.extended.working.trans h.others.working.symm) htarget htarget'
    rw [placeOf_of_target? htarget, placeOf_eq_file_iff] at hplace
    refine .inr ⟨?_, placeOf_ne_directory_of_target? htarget'⟩
    rw [hplace.2]
    exact Option.some_ne_none _
  · exact .inl ((h.others.files names htouched).trans (hf.extended.files names not_false).symm)

/-- So the files of the trees can stand among these directories. -/
theorem Holds.placeOf_withDirectoriesOf_iff (h : Holds base total ts d e)
    (hf : HasRoom base total ts.length d f) (names : List (List Char)) :
    (e.withDirectoriesOf f).placeOf names = .directory names ↔
      f.placeOf names = .directory names := by
  have hiff : (e.withDirectoriesOf f).placeOf names = .directory names ↔
      e.fileAt? names = none ∧ f.hasDirectory names = true :=
    placeOf_eq_directory_iff.trans (and_iff_right rfl)
  rw [hiff]
  rcases h.fileAt?_cases hf names with heq | ⟨hfile, hplace⟩
  · rw [heq, placeOf_eq_directory_iff, and_iff_right rfl]
  · exact ⟨fun hdirectory => absurd hdirectory.1 hfile, fun hdirectory => absurd hdirectory hplace⟩

/-- Where there is room for one more file, so there is besides the files that stand
    there already. -/
theorem Saved.exists_room (h : Saved base total ts d e)
    (hf : HasRoom base total (ts.length + 1) d f) :
    e.Extends (e.withDirectoriesOf f) ∧
      ∃ names, (e.withDirectoriesOf f).target? (base.numbered ts.length total) = some names := by
  have hf' := hf.mono (Nat.le_succ _)
  have hiff := h.placeOf_withDirectoriesOf_iff hf'
  have hworking : f.working = e.working := hf.extended.working.trans h.others.working.symm
  obtain ⟨names, htarget⟩ := hf.room ts.length (Nat.lt_succ_self _)
  have halters : Alters (fun _ => True) f (e.withDirectoriesOf f) :=
    ⟨rfl, fun _ hfalse => absurd trivial hfalse, fun names hplace => (hiff names).mpr hplace⟩
  refine ⟨⟨hworking, fun _ _ => rfl, ?_⟩, names, ?_⟩
  · exact fun names hplace => (hiff names).mpr (h.least f hf' names hplace)
  · refine target?_of_placeOf (halters.place_eq htarget) ?_
    rw [ne_eq, hiff]
    exact placeOf_ne_directory_of_target? htarget

end Room

namespace Saved

variable {base : Path} {total : Nat} {ts : List ProofTree}

theorem nil (base : Path) (total : Nat) (d : Disk) : Saved base total [] d d :=
  ⟨.nil base total d, fun _ hf => hf.extended.directories⟩

/-- One more tree is saved, or there is no room for all of them. -/
theorem save_next (h : Saved base total ts d e) (hlt : ts.length < total) (t : ProofTree)
    {isSaved : Bool}
    (hsave : e.save (base.numbered ts.length total) (t.stored (base.numbered ts.length total)) =
      (e', isSaved)) :
    isSaved = true ∧ Saved base total (ts ++ [t]) d e' ∨
      isSaved = false ∧ e.Extends e' ∧ ∀ f, ¬HasRoom base total (ts.length + 1) d f := by
  rcases e.save_cases (base.numbered ts.length total) (t.stored (base.numbered ts.length total))
    with ⟨e₁, names, hprepare, htarget, hput⟩ | ⟨e₁, _, hprepare, -, hfailed⟩
  · cases hput.symm.trans hsave
    refine .inl ⟨rfl, (h.extends_right (extends_prepare hprepare)).put_next hlt t htarget, ?_⟩
    intro f hf names' hplace
    rw [List.length_append, List.length_singleton] at hf
    obtain ⟨hextends, _, htarget'⟩ := h.exists_room hf
    obtain ⟨e₂, hprepare', hextends', -⟩ := exists_prepare hextends htarget'
    cases hprepare.symm.trans hprepare'
    rw [← h.placeOf_withDirectoriesOf_iff (hf.mono (Nat.le_succ _))]
    -- a directory is none of the files, so it was made on the way to this one
    refine hextends'.directories _ (placeOf_eq_directory_iff.mpr ?_)
    obtain ⟨-, hfile, hhas⟩ := placeOf_eq_directory_iff.mp hplace
    have hne : names' ≠ names := by
      rintro rfl
      rw [fileAt?_put_self] at hfile
      cases hfile
    rw [fileAt?_put_of_ne hne] at hfile
    exact ⟨rfl, hfile, hhas⟩
  · cases hfailed.symm.trans hsave
    refine .inr ⟨rfl, extends_prepare hprepare, fun f hf => ?_⟩
    obtain ⟨hextends, names, htarget⟩ := h.exists_room hf
    have hrefuses := (save_eq_false_iff ..).mp (congrArg Prod.snd hfailed)
    rw [hrefuses _ hextends] at htarget
    cases htarget

end Saved

end Disk

end SequentCalculus
