import Mathlib.Data.List.TakeDrop
import SequentCalculus.File.Disk
import SequentCalculus.Proofs.Substitution

/-! # Numbered paths — one file for each tree

    Several trees are saved under one path by numbering its file name.  The
    number stands behind the stem, where it neither adds nor takes away the dot
    that begins the extension (`Path.extensionOf?_numberedName`).  The numbered
    name is put in the place of the old one, so all numbered paths agree in
    everything above it (`Path.exists_above_numbered`) and differ in the number
    alone.

    Paths can be told apart as they are written, by where they begin and by their
    parts (`Path.Same`), or by where they lead on a disk (`Disk.target?`); numbered
    paths differ in both. -/

namespace SequentCalculus

namespace Path

/-! ## Stems and extensions -/

/-- Every name has no dot, or a last one. -/
theorem exists_lastDot (name : List Char) :
    '.' ∉ name ∨ ∃ before after, name = before ++ '.' :: after ∧ '.' ∉ after := by
  by_cases h : '.' ∈ name
  · obtain ⟨after, before, heq, hafter⟩ := List.eq_append_cons_of_mem (List.mem_reverse.mpr h)
    refine Or.inr ⟨before.reverse, after.reverse, ?_, fun hdot => hafter (List.mem_reverse.mp hdot)⟩
    rw [← List.reverse_reverse name, heq]
    simp
  · exact Or.inl h

theorem ne_dot_of_mem_reverse {after : List Char} (h : '.' ∉ after) :
    ∀ c ∈ after.reverse, (c != '.') = true := by
  intro c hc
  rw [bne_iff_ne]
  rintro rfl
  exact h (List.mem_reverse.mp hc)

/-- The last point of a name is the one with no point behind it. -/
theorem splitAtLastDot_append (before : List Char) {after : List Char} (h : '.' ∉ after) :
    splitAtLastDot (before ++ '.' :: after) = (before, some after) := by
  have hafter := ne_dot_of_mem_reverse h
  have hspan : (before ++ '.' :: after).reverse.span (· != '.') =
      (after.reverse, '.' :: before.reverse) := by
    rw [List.span_eq_takeWhile_dropWhile, List.reverse_append, List.reverse_cons,
      List.append_assoc, List.takeWhile_append_of_pos hafter, List.dropWhile_append_of_pos hafter]
    simp
  rw [splitAtLastDot, hspan]
  simp

/-- A name without a point has no extension. -/
theorem splitAtLastDot_of_not_mem {name : List Char} (h : '.' ∉ name) :
    splitAtLastDot name = (name, none) := by
  have hname := ne_dot_of_mem_reverse h
  have hspan : name.reverse.span (· != '.') = (name.reverse, []) := by
    rw [List.span_eq_takeWhile_dropWhile, ← List.append_nil name.reverse,
      List.takeWhile_append_of_pos hname, List.dropWhile_append_of_pos hname]
    simp
  rw [splitAtLastDot, hspan]

/-- The extension of a name with the dot before it, or nothing. -/
def suffix (name : List Char) : List Char :=
  match extensionOf? name with
  | some ext => '.' :: ext
  | none => []

/-- A file name with a number behind its stem. -/
def numberedName (name : List Char) (n : Nat) : List Char :=
  stem name ++ '-' :: Nat.toDigits 10 n ++ suffix name

/-- A name has an extension if there is something before its last dot, and else
    it is its own stem. -/
theorem stem_suffix_cases (name : List Char) :
    (extensionOf? name = none ∧ stem name = name ∧
      ('.' ∉ name ∨ ∃ after, name = '.' :: after ∧ '.' ∉ after)) ∨
    ∃ ext, extensionOf? name = some ext ∧ name = stem name ++ '.' :: ext ∧ '.' ∉ ext ∧
      stem name ≠ [] := by
  rcases exists_lastDot name with h | ⟨before, after, rfl, h⟩
  · refine Or.inl ⟨?_, ?_, Or.inl h⟩
    · rw [extensionOf?, splitAtLastDot_of_not_mem h]
      cases name <;> rfl
    · rw [stem, splitAtLastDot_of_not_mem h]
      cases name <;> rfl
  · cases before with
    | nil =>
        refine Or.inl ⟨?_, ?_, Or.inr ⟨after, rfl, h⟩⟩
        · rw [extensionOf?, splitAtLastDot_append _ h]
        · rw [stem, splitAtLastDot_append _ h]
    | cons c before =>
        have hstem : stem (c :: before ++ '.' :: after) = c :: before := by
          rw [stem, splitAtLastDot_append _ h]
        refine Or.inr ⟨after, ?_, ?_, h, ?_⟩
        · rw [extensionOf?, splitAtLastDot_append _ h]
        · rw [hstem]
        · rw [hstem]
          exact List.cons_ne_nil c before

/-- A number has digits and a dash only. -/
theorem not_mem_number {c : Char} (hdash : c ≠ '-') (hdigit : c.isDigit = false) (n : Nat) :
    c ∉ '-' :: Nat.toDigits 10 n := by
  intro h
  rcases List.mem_cons.mp h with h | h
  · exact hdash h
  · exact not_mem_toDigits hdigit n h

/-- Numbering a name keeps its extension. -/
theorem extensionOf?_numberedName (name : List Char) (n : Nat) :
    extensionOf? (numberedName name n) = extensionOf? name := by
  rcases stem_suffix_cases name with ⟨hnone, hstem, hdots⟩ | ⟨ext, hext, -, hdot, hne⟩
  · have hname : numberedName name n = name ++ '-' :: Nat.toDigits 10 n := by
      rw [numberedName, suffix, hnone, hstem, List.append_nil]
    have hnumber : '.' ∉ '-' :: Nat.toDigits 10 n := not_mem_number (by decide) rfl n
    rw [hnone, hname]
    rcases hdots with hdots | ⟨after, rfl, hdots⟩
    · -- no dot at all
      have hnot : '.' ∉ name ++ '-' :: Nat.toDigits 10 n := fun h =>
        (List.mem_append.mp h).elim hdots hnumber
      rw [extensionOf?, splitAtLastDot_of_not_mem hnot]
      cases name <;> rfl
    · -- the only dot begins the name
      have hnot : '.' ∉ after ++ '-' :: Nat.toDigits 10 n := fun h =>
        (List.mem_append.mp h).elim hdots hnumber
      have hsplit := splitAtLastDot_append [] hnot
      rw [List.nil_append] at hsplit
      rw [extensionOf?, List.cons_append, hsplit]
  · -- the number stands before the last point, which stays the last
    have hsplit := splitAtLastDot_append (stem name ++ '-' :: Nat.toDigits 10 n) hdot
    rw [hext, numberedName, suffix, hext]
    show extensionOf? (stem name ++ '-' :: Nat.toDigits 10 n ++ '.' :: ext) = some ext
    rw [extensionOf?, hsplit]
    cases hs : stem name with
    | nil => exact absurd hs hne
    | cons c cs => rfl

/-- Different numbers give different names. -/
theorem numberedName_inj {name : List Char} {m n : Nat}
    (h : numberedName name m = numberedName name n) : m = n := by
  have hdigits : Nat.toDigits 10 m = Nat.toDigits 10 n := by
    simpa [numberedName] using h
  exact toDigits_inj hdigits

/-! ## Segments and parts -/

theorem segmentsFrom_slash (pos : Nat) (cs : List Char) :
    segmentsFrom pos ('/' :: cs) = ([], pos) :: segmentsFrom (pos + 1) cs :=
  if_pos rfl

/-- There is always a segment, be it empty. -/
theorem segmentsFrom_ne_nil (pos : Nat) (cs : List Char) : segmentsFrom pos cs ≠ [] := by
  cases cs with
  | nil => exact List.cons_ne_nil _ _
  | cons c cs =>
      rw [segmentsFrom]
      split
      · exact List.cons_ne_nil _ _
      · split <;> exact List.cons_ne_nil _ _

/-- A character other than a slash goes to the front of the first segment. -/
theorem exists_segmentsFrom_cons {c : Char} (h : c ≠ '/') (pos : Nat) (cs : List Char) :
    ∃ s stop rest, segmentsFrom (pos + 1) cs = (s, stop) :: rest ∧
      segmentsFrom pos (c :: cs) = (c :: s, stop) :: rest := by
  rw [segmentsFrom, if_neg h]
  cases hs : segmentsFrom (pos + 1) cs with
  | nil => exact absurd hs (segmentsFrom_ne_nil _ _)
  | cons a rest => exact ⟨a.1, a.2, rest, rfl, rfl⟩

theorem segmentsFrom_cons_of_ne {c : Char} (h : c ≠ '/') (pos : Nat) (cs : List Char) :
    ∃ s rest, (segmentsFrom (pos + 1) cs).map (·.1) = s :: rest ∧
      (segmentsFrom pos (c :: cs)).map (·.1) = (c :: s) :: rest := by
  obtain ⟨s, stop, rest, hcs, hcons⟩ := exists_segmentsFrom_cons h pos cs
  rw [hcs, hcons]
  exact ⟨s, rest.map (·.1), rfl, rfl⟩

/-- A name without a slash is one segment. -/
theorem segmentsFrom_of_not_mem {name : List Char} (h : '/' ∉ name) (pos : Nat) :
    (segmentsFrom pos name).map (·.1) = [name] := by
  induction name generalizing pos with
  | nil => rfl
  | cons c cs ih =>
      obtain ⟨hc, hcs⟩ := not_or.mp fun hmem => h (List.mem_cons.mpr hmem)
      obtain ⟨s, rest, hseg, hcons⟩ := segmentsFrom_cons_of_ne (Ne.symm hc) pos cs
      rw [ih hcs] at hseg
      cases hseg
      exact hcons

/-- What follows a slash and has none itself is the last segment. -/
theorem segmentsFrom_append {name : List Char} (h : '/' ∉ name) (cs : List Char) (pos : Nat) :
    (segmentsFrom pos (cs ++ '/' :: name)).map (·.1) =
      (segmentsFrom pos cs).map (·.1) ++ [name] := by
  induction cs generalizing pos with
  | nil =>
      rw [List.nil_append, segmentsFrom_slash, List.map_cons, segmentsFrom_of_not_mem h]
      rfl
  | cons c cs ih =>
      by_cases hc : c = '/'
      · rw [hc, List.cons_append, segmentsFrom_slash, segmentsFrom_slash, List.map_cons, ih]
        rfl
      · obtain ⟨s, rest, hseg, hcons⟩ := segmentsFrom_cons_of_ne hc pos cs
        obtain ⟨s', rest', hseg', hcons'⟩ :=
          segmentsFrom_cons_of_ne hc pos (cs ++ '/' :: name)
        rw [ih, hseg] at hseg'
        cases hseg'
        rw [List.cons_append, hcons, hcons']
        rfl

/-- No segment has a slash. -/
theorem slash_not_mem_segments {cs : List Char} {pos : Nat} {s : List Char}
    (h : s ∈ (segmentsFrom pos cs).map (·.1)) : '/' ∉ s := by
  induction cs generalizing pos s with
  | nil =>
      rw [List.mem_singleton.mp h]
      exact List.not_mem_nil
  | cons c cs ih =>
      by_cases hc : c = '/'
      · rw [hc, segmentsFrom_slash, List.map_cons] at h
        rcases List.mem_cons.mp h with rfl | h
        · exact List.not_mem_nil
        · exact ih h
      · obtain ⟨t, rest, hseg, hcons⟩ := segmentsFrom_cons_of_ne hc pos cs
        rw [hcons] at h
        rcases List.mem_cons.mp h with rfl | h
        · have ht : '/' ∉ t := ih (by rw [hseg]; exact List.mem_cons_self)
          exact fun hmem => (List.mem_cons.mp hmem).elim (Ne.symm hc) ht
        · exact ih (by rw [hseg]; exact List.mem_cons_of_mem _ h)

/-- The segments that are parts. -/
def counted : List (List Char) → List (List Char)
  | [] => []
  | first :: rest =>
      if first == ['.'] then first :: rest.filter counts else (first :: rest).filter counts

/-- The parts of a path are the segments that count. -/
theorem parts_eq (p : Path) : p.parts.map (·.1) = counted p.segments := by
  have hfilter : ∀ ss : List (List Char × Nat),
      (ss.filter fun s => counts s.1).map (·.1) =
        (ss.map (·.1)).filter counts := by
    intro ss
    rw [List.filter_map]
    rfl
  rw [parts, segments]
  cases segmentsFrom 0 p.text.toList with
  | nil => rfl
  | cons first rest =>
      rw [partsOf]
      show (if first.1 == ['.'] then first :: rest.filter _ else (first :: rest).filter _).map _ =
        if first.1 == ['.'] then first.1 :: (rest.map _).filter counts
        else ((first :: rest).map (·.1)).filter counts
      split
      · rw [List.map_cons, hfilter]
      · rw [hfilter]

theorem mem_of_mem_counted {ss : List (List Char)} {s : List Char} (h : s ∈ counted ss) :
    s ∈ ss := by
  cases ss with
  | nil => exact h
  | cons first rest =>
      rw [counted] at h
      split at h
      · rcases List.mem_cons.mp h with rfl | h
        · exact List.mem_cons_self
        · exact List.mem_cons_of_mem _ (List.mem_filter.mp h).1
      · exact (List.mem_filter.mp h).1

/-- A name that counts is the last part. -/
theorem counted_append {name : List Char} (h : counts name = true) (above : List (List Char)) :
    counted (above ++ [name]) = counted above ++ [name] := by
  have hfilter : [name].filter counts = [name] := by
    simp [h]
  cases above with
  | nil =>
      have hdot : ¬ (name == ['.']) = true := by
        intro hdot
        rw [beq_iff_eq.mp hdot] at h
        cases h
      show (if name == ['.'] then _ else [name].filter counts) = [name]
      rw [if_neg hdot, hfilter]
  | cons first rest =>
      rw [List.cons_append, counted, counted]
      split
      · rw [List.filter_append, hfilter]
        rfl
      · rw [← List.cons_append, List.filter_append, hfilter]

/-- The file name is the last part, unless that leads up or stays. -/
theorem fileName?_eq (p : Path) :
    p.fileName? = (counted p.segments).getLast?.filter fun s =>
      !(s == ['.', '.'] || s == ['.']) := by
  rw [← parts_eq, List.getLast?_map, fileName?]
  cases p.parts.getLast? with
  | none => rfl
  | some a =>
      obtain ⟨s, stop⟩ := a
      show (if _ then none else some s) = Option.filter _ (some s)
      rw [Option.filter_some]
      cases (s == ['.', '.'] || s == ['.']) <;> rfl

theorem slash_not_mem_fileName {p : Path} {name : List Char} (h : p.fileName? = some name) :
    '/' ∉ name := by
  rw [fileName?_eq, Option.filter_eq_some_iff] at h
  exact slash_not_mem_segments (mem_of_mem_counted (List.mem_of_getLast? h.1))

/-! ## Putting a name in its place -/

theorem isAbsolute_append {p : Path} (h : p.text.toList ≠ []) (s : String) :
    (Path.mk (p.text ++ s)).isAbsolute = p.isAbsolute := by
  obtain ⟨c, cs, hcs⟩ := List.exists_cons_of_ne_nil h
  rw [isAbsolute, isAbsolute, String.toList_append, hcs]
  rfl

theorem head?_ne_slash {name : String} (h : '/' ∉ name.toList) :
    ¬ (name.toList.head? == some '/') = true := by
  intro heq
  exact h (List.mem_of_head? (beq_iff_eq.mp heq))

/-- A name is put below a path with a slash between them, unless the path is empty
    or has one at its end. -/
theorem push_cases (q : Path) :
    (∀ name : String, '/' ∉ name.toList → q.push name = ⟨name⟩) ∨
    (∃ cs, q.text.toList = cs ++ ['/'] ∧
      ∀ name : String, '/' ∉ name.toList → q.push name = ⟨q.text ++ name⟩) ∨
    (q.text.toList ≠ [] ∧
      ∀ name : String, '/' ∉ name.toList → q.push name = ⟨q.text ++ ("/" ++ name)⟩) := by
  cases hlast : q.text.toList.getLast? with
  | none =>
      -- the path is empty
      refine Or.inl fun name hname => ?_
      rw [push, if_neg (head?_ne_slash hname), hlast]
  | some c =>
      obtain ⟨cs, hcs⟩ := List.getLast?_eq_some_iff.mp hlast
      -- a slash is put in between unless the path ends in one
      by_cases hc : c = '/'
      · subst hc
        refine Or.inr (Or.inl ⟨cs, hcs, fun name hname => ?_⟩)
        rw [push, if_neg (head?_ne_slash hname), hlast]
        rfl
      · refine Or.inr (Or.inr ⟨?_, fun name hname => ?_⟩)
        · rw [hcs]
          exact List.append_ne_nil_of_right_ne_nil cs (List.cons_ne_nil c [])
        · rw [push, if_neg (head?_ne_slash hname), hlast, ← String.append_assoc]
          split
          · rename_i heq
            cases heq
          · rename_i heq
            exact absurd (Option.some.inj heq) hc
          · rfl

/-- Whatever name is put below a path, everything above it is the same. -/
theorem exists_above_push (q : Path) :
    ∃ above absolute, ∀ name : String, '/' ∉ name.toList →
      (q.push name).segments = above ++ [name.toList] ∧ (q.push name).isAbsolute = absolute := by
  rcases q.push_cases with hpush | ⟨cs, hcs, hpush⟩ | ⟨hne, hpush⟩
  · refine ⟨[], false, fun name hname => ?_⟩
    rw [hpush name hname]
    exact ⟨segmentsFrom_of_not_mem hname 0, Bool.eq_false_iff.mpr (head?_ne_slash hname)⟩
  · refine ⟨(segmentsFrom 0 cs).map (·.1), q.isAbsolute, fun name hname => ?_⟩
    have hne : q.text.toList ≠ [] := by
      rw [hcs]
      exact List.append_ne_nil_of_right_ne_nil cs (List.cons_ne_nil '/' [])
    rw [hpush name hname]
    refine ⟨?_, isAbsolute_append hne name⟩
    rw [segments, String.toList_append, hcs, List.append_assoc]
    exact segmentsFrom_append hname cs 0
  · refine ⟨q.segments, q.isAbsolute, fun name hname => ?_⟩
    rw [hpush name hname]
    refine ⟨?_, isAbsolute_append hne _⟩
    rw [segments, String.toList_append, String.toList_append]
    exact segmentsFrom_append hname _ 0

/-- Another file name is pushed onto the same path, whatever it is. -/
theorem exists_push_of_withFileName (p : Path) :
    ∃ q : Path, ∀ name, p.withFileName name = q.push name := by
  cases hname : p.fileName? with
  | none => exact ⟨p, fun name => by rw [withFileName, hname]⟩
  | some old =>
      cases hparent : p.parent? with
      | none => exact ⟨p, fun name => by rw [withFileName, hname, hparent]⟩
      | some parent => exact ⟨parent, fun name => by rw [withFileName, hname, hparent]⟩

/-! ## Numbered paths -/

/-- A numbered path has a file name with the number in it. -/
theorem numbered_eq (p : Path) (i : Nat) {total : Nat} (h : 1 < total) :
    p.numbered i total =
      p.withFileName (String.ofList (numberedName (p.fileName?.getD []) (i + 1))) := by
  rw [numbered, if_neg (Nat.not_le_of_lt h)]
  refine congrArg p.withFileName (String.toList_inj.mp ?_)
  rw [numberedName, suffix]
  cases extensionOf? (p.fileName?.getD []) <;> simp

/-- A number brings no slash into a name. -/
theorem slash_not_mem_numberedName {name : List Char} (h : '/' ∉ name) (n : Nat) :
    '/' ∉ numberedName name n := by
  have hnumber : '/' ∉ '-' :: Nat.toDigits 10 n := not_mem_number (by decide) rfl n
  have hparts : '/' ∉ stem name ∧ '/' ∉ suffix name := by
    rcases stem_suffix_cases name with ⟨hnone, hstem, -⟩ | ⟨ext, hext, hname, -, -⟩
    · rw [suffix, hnone, hstem]
      exact ⟨h, List.not_mem_nil⟩
    · rw [suffix, hext]
      rw [hname] at h
      exact ⟨fun hs => h (List.mem_append_left _ hs), fun hs => h (List.mem_append_right _ hs)⟩
  intro hmem
  rcases List.mem_append.mp hmem with hmem | hmem
  · exact (List.mem_append.mp hmem).elim hparts.1 hnumber
  · exact hparts.2 hmem

/-- All numbered paths agree in where they begin and in the segments above their
    names. -/
theorem exists_above_numbered (p : Path) {total : Nat} (h : 1 < total) :
    ∃ above absolute, ∀ i,
      (p.numbered i total).segments = above ++ [numberedName (p.fileName?.getD []) (i + 1)] ∧
      (p.numbered i total).isAbsolute = absolute := by
  have hold : '/' ∉ p.fileName?.getD [] := by
    cases hname : p.fileName? with
    | none => exact List.not_mem_nil
    | some name => exact slash_not_mem_fileName hname
  obtain ⟨q, hq⟩ := p.exists_push_of_withFileName
  obtain ⟨above, absolute, habove⟩ := q.exists_above_push
  refine ⟨above, absolute, fun i => ?_⟩
  have hname := slash_not_mem_numberedName hold (i + 1)
  rw [numbered_eq p i h, hq]
  have hpush := habove (String.ofList (numberedName (p.fileName?.getD []) (i + 1)))
  rw [String.toList_ofList] at hpush
  exact hpush hname

/-- A numbered name says something and does not lead up. -/
theorem counts_numberedName (name : List Char) (n : Nat) :
    counts (numberedName name n) = true ∧ numberedName name n ≠ ['.', '.'] ∧
      numberedName name n ≠ ['.'] := by
  have hdash : '-' ∈ numberedName name n :=
    List.mem_append_left _ (List.mem_append_right _ List.mem_cons_self)
  have hup : numberedName name n ≠ ['.', '.'] := by
    intro heq
    rw [heq] at hdash
    exact absurd hdash (by decide)
  have hhere : numberedName name n ≠ ['.'] := by
    intro heq
    rw [heq] at hdash
    exact absurd hdash (by decide)
  refine ⟨?_, hup, hhere⟩
  rw [counts, Bool.and_eq_true, bne_iff_ne, Bool.not_eq_true', List.isEmpty_eq_false_iff]
  exact ⟨List.ne_nil_of_mem hdash, hhere⟩

/-- Two ways to write a path mean the same path if they agree in where they begin
    and in their parts. -/
def Same (p q : Path) : Prop :=
  p.isAbsolute = q.isAbsolute ∧ p.parts.map (·.1) = q.parts.map (·.1)

instance (p q : Path) : Decidable (p.Same q) :=
  inferInstanceAs (Decidable (_ ∧ _))

/-- A number keeps the extension. -/
theorem extension?_numbered (p : Path) (i : Nat) {total : Nat} (h : 1 < total) :
    (p.numbered i total).extension? = p.extension? := by
  obtain ⟨above, absolute, habove⟩ := p.exists_above_numbered h
  obtain ⟨hcounts, hup, hhere⟩ := counts_numberedName (p.fileName?.getD []) (i + 1)
  have hname : (p.numbered i total).fileName? =
      some (numberedName (p.fileName?.getD []) (i + 1)) := by
    rw [fileName?_eq, (habove i).1, counted_append hcounts, List.getLast?_concat,
      Option.filter_some]
    simp [hup, hhere]
  rw [extension?, extension?, hname, Option.bind_some, extensionOf?_numberedName]
  cases p.fileName? <;> rfl

end Path

/-! ## Where numbered files stand -/

/-- Where a file would be written, if the place is not taken by a directory. -/
def Place.target? : Place → Option (List (List Char))
  | file names _ => some names
  | vacant names => some names
  | _ => none

/-- The path can be followed: it is not empty, has no zero character and is not too
    long. -/
structure Path.Followable (p : Path) : Prop where
  ne_empty : p.text ≠ ""
  zero : '\x00' ∉ p.text.toList
  size : p.text.utf8ByteSize ≤ pathLimit

/-- Where a file would be written under a path. -/
def Disk.target? (d : Disk) (p : Path) : Option (List (List Char)) := (d.place p).target?

namespace Disk

variable {d : Disk} {names : List (List Char)}

/-- What stands at some names is a file, a directory or nothing, and it has these
    names. -/
theorem placeOf_cases (d : Disk) (names : List (List Char)) :
    (∃ content, d.fileAt? names = some content ∧ d.placeOf names = .file names content) ∨
    (d.fileAt? names = none ∧ d.hasDirectory names = true ∧ d.placeOf names = .directory names) ∨
    (d.fileAt? names = none ∧ d.hasDirectory names = false ∧ d.placeOf names = .vacant names) := by
  rw [placeOf]
  cases d.fileAt? names with
  | some content => exact .inl ⟨content, rfl, rfl⟩
  | none =>
      cases d.hasDirectory names with
      | true => exact .inr (.inl ⟨rfl, rfl, rfl⟩)
      | false => exact .inr (.inr ⟨rfl, rfl, rfl⟩)

/-- From a directory a segment stays there, leads up, cannot be followed, or leads to
    what has its name there. -/
theorem follow_cases (s : List Char) (above : List (List Char)) :
    (Path.counts s = false ∧ ∀ d : Disk, d.follow s (.directory above) = .directory above) ∨
    (Path.counts s = true ∧
      ((∀ d : Disk, d.follow s (.directory above) = .directory above.dropLast) ∨
      (∀ d : Disk, d.follow s (.directory above) = .barred) ∨
      ∀ d : Disk, d.follow s (.directory above) = d.placeOf (above ++ [s]))) := by
  by_cases hstay : (s.isEmpty || s == ['.']) = true
  · refine .inl ⟨?_, fun d => if_pos hstay⟩
    rw [Path.counts]
    cases hempty : s.isEmpty with
    | true => rfl
    | false =>
        rw [hempty, Bool.false_or] at hstay
        simp [beq_iff_eq.mp hstay]
  · -- what does not stay counts
    have hcounts : Path.counts s = true := by
      rw [Path.counts]
      simpa using hstay
    refine .inr ⟨hcounts, ?_⟩
    by_cases hup : (s == ['.', '.']) = true
    · refine .inl fun d => ?_
      rw [follow, if_neg hstay, if_pos hup]
    · by_cases hlong : nameLimit < (String.ofList s).utf8ByteSize
      · refine .inr (.inl fun d => ?_)
        rw [follow, if_neg hstay, if_neg hup, if_pos hlong]
      · refine .inr (.inr fun d => ?_)
        rw [follow, if_neg hstay, if_neg hup, if_neg hlong]

/-- A file is written under the name followed last, in the directory it is
    followed from. -/
theorem target?_follow {s : List Char} {from_ : Place}
    (h : (d.follow s from_).target? = some names) :
    ∃ above, from_ = .directory above ∧ names = above ++ [s] ∧ Path.counts s = true ∧
      ∀ e : Disk, e.follow s from_ = e.placeOf names := by
  cases from_ with
  | directory above =>
      rcases follow_cases s above with ⟨-, hstay⟩ | ⟨hcounts, hup | hbarred | hname⟩
      · rw [hstay] at h
        cases h
      · rw [hup] at h
        cases h
      · rw [hbarred] at h
        cases h
      · rw [hname] at h
        -- a file or nothing stands there, since a directory is no place for a file
        have hnames : names = above ++ [s] := by
          rcases d.placeOf_cases (above ++ [s]) with ⟨_, -, hplace⟩ | ⟨-, -, hplace⟩ |
            ⟨-, -, hplace⟩
          · rw [hplace] at h
            exact (Option.some.inj h).symm
          · rw [hplace] at h
            cases h
          · rw [hplace] at h
            exact (Option.some.inj h).symm
        rw [hnames]
        exact ⟨above, rfl, rfl, hcounts, hname⟩
  | file _ _ => cases h
  | vacant _ => cases h
  | missing => cases h
  | barred => cases h

/-- A followable path is followed segment by segment. -/
theorem place_of_followable {p : Path} (h : p.Followable) (d : Disk) :
    d.place p = d.followAll p.segments (d.origin p) := by
  have hempty : ¬p.text.isEmpty = true := fun hempty => h.ne_empty (String.isEmpty_iff.mp hempty)
  rw [place, if_neg hempty, String.contains_char_eq, decide_eq_false h.zero,
    decide_eq_false (Nat.not_lt.mpr h.size)]
  rfl

/-- A path that leads somewhere can be followed. -/
theorem followable_of_place {p : Path} (hmissing : d.place p ≠ .missing)
    (hbarred : d.place p ≠ .barred) : p.Followable := by
  rw [place] at hmissing hbarred
  by_cases hempty : p.text.isEmpty = true
  · exact absurd (if_pos hempty) hmissing
  · rw [if_neg hempty] at hbarred
    by_cases hbad : (p.text.contains '\x00' || decide (pathLimit < p.text.utf8ByteSize)) = true
    · exact absurd (if_pos hbad) hbarred
    · rw [String.contains_char_eq] at hbad
      simp only [Bool.or_eq_true, decide_eq_true_eq, not_or, Nat.not_lt] at hbad
      exact ⟨fun h => hempty (String.isEmpty_iff.mpr h), hbad.1, hbad.2⟩

theorem followable_of_target? {p : Path} (h : d.target? p = some names) : p.Followable := by
  refine followable_of_place (d := d) ?_ ?_ <;>
    intro hplace <;> rw [target?, hplace] at h <;> cases h

theorem followAll_concat (d : Disk) (above : List (List Char)) (s : List Char) (from_ : Place) :
    d.followAll (above ++ [s]) from_ = d.follow s (d.followAll above from_) := by
  rw [followAll, List.foldl_concat]
  rfl

/-- The place of a file is the last segment of its path in the directory that the
    segments above it lead to. -/
theorem target?_eq_some {p : Path} {above : List (List Char)} {s : List Char}
    (hsegments : p.segments = above ++ [s]) (h : d.target? p = some names) :
    ∃ directory, d.followAll above (d.origin p) = .directory directory ∧
      names = directory ++ [s] := by
  rw [target?, place_of_followable (followable_of_target? h), hsegments, followAll_concat] at h
  obtain ⟨directory, hdirectory, hnames, -⟩ := target?_follow h
  exact ⟨directory, hdirectory, hnames⟩

/-- Paths with different numbers lead to different files on every disk. -/
theorem eq_of_target?_numbered {base : Path} {total : Nat} (htotal : 1 < total) {i j : Nat}
    (hi : d.target? (base.numbered i total) = some names)
    (hj : d.target? (base.numbered j total) = some names) : i = j := by
  obtain ⟨above, absolute, habove⟩ := base.exists_above_numbered htotal
  obtain ⟨directory, hdirectory, hnames⟩ := target?_eq_some (habove i).1 hi
  obtain ⟨directory', hdirectory', hnames'⟩ := target?_eq_some (habove j).1 hj
  -- the way to the last name is the same
  rw [origin, (habove i).2] at hdirectory
  rw [origin, (habove j).2, hdirectory] at hdirectory'
  cases hdirectory'
  have hname := List.append_cancel_left (hnames.symm.trans hnames')
  exact Nat.succ.inj (Path.numberedName_inj (List.cons.inj hname).1)

end Disk

/-- **Numbered files never collide and keep their format.**  Paths with different
    numbers are different paths, however they are written, and lead to
    different files on every disk; and the format that a numbered path asks for
    is the one that the path without a number asks for. -/
theorem Path.numbered_apart (base : Path) {total : Nat} (htotal : 1 < total) :
    (∀ i j, (base.numbered i total).Same (base.numbered j total) → i = j) ∧
    (∀ (d : Disk) i j names, d.target? (base.numbered i total) = some names →
      d.target? (base.numbered j total) = some names → i = j) ∧
    ∀ i, StorageFormat.ofPath (base.numbered i total) = StorageFormat.ofPath base := by
  refine ⟨?_, fun d i j names => Disk.eq_of_target?_numbered htotal, ?_⟩
  · rintro i j ⟨-, hparts⟩
    obtain ⟨above, absolute, habove⟩ := base.exists_above_numbered htotal
    rw [parts_eq, parts_eq, (habove i).1, (habove j).1,
      counted_append (counts_numberedName _ _).1, counted_append (counts_numberedName _ _).1]
      at hparts
    -- the names at the end are equal only for equal numbers
    have hnames := List.append_cancel_left hparts
    exact Nat.succ.inj (numberedName_inj (List.cons.inj hnames).1)
  · intro i
    rw [StorageFormat.ofPath, StorageFormat.ofPath, extension?_numbered base i htotal]

/-- The absolute path `/out/../.trees/v1.2.TOML/`, which leads up and ends with a
    slash, with two dots in its name and one at the beginning of another. -/
def Path.versioned : Path := ⟨"/out/../.trees/v1.2.TOML/"⟩

/-- A disk on which this path leads to a directory beside the working directory. -/
def Disk.withTrees : Disk :=
  { working := ["home".toList], directories := [["out".toList], [".trees".toList]] }

/-- Its first and its third file stand apart in the directory `.trees`, and both
    hold text. -/
theorem Path.numbered_apart_versioned :
    1 < 3 ∧ ¬ (versioned.numbered 0 3).Same (versioned.numbered 2 3) ∧
      StorageFormat.ofPath (versioned.numbered 2 3) = .text ∧
      Disk.withTrees.target? (versioned.numbered 0 3) =
        some [".trees".toList, "v1.2-1.TOML".toList] ∧
      Disk.withTrees.target? (versioned.numbered 2 3) ≠
        some [".trees".toList, "v1.2-1.TOML".toList] := by
  obtain ⟨hpaths, hfiles, hformat⟩ := Path.numbered_apart versioned (by decide : 1 < 3)
  have hfirst : versioned.numbered 0 3 = ⟨"/out/../.trees/v1.2-1.TOML"⟩ := by decide
  have htarget : Disk.withTrees.target? (versioned.numbered 0 3) =
      some [".trees".toList, "v1.2-1.TOML".toList] := by
    rw [hfirst, Disk.target?, Disk.place, if_neg (by decide), String.contains_char_eq]
    decide +kernel
  refine ⟨by decide, fun h => absurd (hpaths 0 2 h) (by decide), ?_, htarget, fun h => ?_⟩
  · rw [hformat 2]
    decide
  · exact absurd (hfiles _ 0 2 _ htarget h) (by decide)

end SequentCalculus
