import Mathlib.Data.List.Induction
import SequentCalculus.Command.Plan
import SequentCalculus.Proofs.Colours
import SequentCalculus.Proofs.Outlines

/-! # Showing — the lines that a run prints

    What is printed of a tree is a list of lines: those of its outline, or those of
    the outlines of its derivations, each under its number, and one line that sums
    the tree up.  Between two trees there is an empty line (`shownLines`).

    Without colours the output is these lines and nothing else.  In colour, escape
    sequences stand in between, and deleting them leaves the lines
    (`shows_treesText`). -/

namespace SequentCalculus

/-! ## Texts made of lines -/

namespace Line

/-- The characters of a line, with the line end behind it. -/
def ended (l : Line) : List Char := List.replicate l.column ' ' ++ l.text.toList ++ ['\n']

/-- Line ends before all lines and behind the last are line ends before the first
    and behind all. -/
theorem flatMap_chars_concat (ls : List Line) :
    ls.flatMap chars ++ ['\n'] = '\n' :: ls.flatMap ended := by
  induction ls with
  | nil => rfl
  | cons l ls ih =>
      rw [List.flatMap_cons, List.flatMap_cons, List.append_assoc, ih, chars, ended]
      simp only [List.cons_append, List.append_assoc, List.nil_append]

end Line

/-- The text that lines make. -/
def linesText (ls : List Line) : String := String.ofList (ls.flatMap Line.ended)

/-- Lines in a row make texts in a row. -/
theorem linesText_append (ls ks : List Line) :
    linesText (ls ++ ks) = linesText ls ++ linesText ks := by
  rw [linesText, List.flatMap_append, String.ofList_append]
  rfl

theorem linesText_cons (l : Line) (ls : List Line) :
    linesText (l :: ls) = linesText [l] ++ linesText ls :=
  linesText_append [l] ls

/-- A line that begins in the first column. -/
theorem linesText_first (text : String) : linesText [⟨0, text⟩] = text ++ "\n" := by
  rw [← String.toList_inj, String.toList_append, linesText, String.toList_ofList]
  exact List.append_nil _

/-! ## The lines of trees -/

/-- The line that sums a tree up: whether it is closed, how many derivations it has,
    how deep it is and how many leaves it has. -/
def ProofTree.verdict (t : ProofTree) : String :=
  (if t.isClosed then "closed" else "open") ++ " (" ++ toString t.alternatives ++
    " alternative derivation(s), depth " ++ toString t.depth ++ ", " ++
    toString t.leafCount ++ " leaves)"

/-- The lines of derivations, each under its number. -/
def derivationLines (ds : List ProofTree) : List Line :=
  (ds.zipIdx 1).flatMap fun d =>
    ⟨0, "derivation " ++ toString d.2 ++ "/" ++ toString ds.length⟩ :: d.1.linesAt 0

/-- The lines that show a tree. -/
def ProofTree.shownLines (split : Bool) (t : ProofTree) : List Line :=
  (if split then derivationLines t.split else t.linesAt 0) ++ [⟨0, t.verdict⟩]

/-- The lines that show trees, an empty one between each two of them. -/
def shownLines (split : Bool) (ts : List ProofTree) : List Line :=
  [⟨0, ""⟩].intercalate (ts.map (ProofTree.shownLines split))

/-- The output shows the trees one after the other: it is their lines, with escape
    sequences in between if it is coloured. -/
structure Shows (coloured split : Bool) (ts : List ProofTree) (output : String) : Prop where
  plain : coloured = false → output = linesText (shownLines split ts)
  uncoloured : (∀ t ∈ ts, t.NamesLack '\x1b') →
    withoutColours output = linesText (shownLines split ts)

/-! ## What is printed of a tree -/

/-- What is printed of a tree after `index` others. -/
def treeText (coloured split : Bool) (index : Nat) (t : ProofTree) : String :=
  (if index = 0 then "" else "\n") ++
    ((if split then derivationsText coloured t.split.length 1 t.split
      else outlineText coloured t) ++ summary t)

/-- What is printed of trees. -/
def treesText (coloured split : Bool) (ts : List ProofTree) : String :=
  String.join (ts.mapIdx (treeText coloured split))

/-- One more tree is printed behind the others. -/
theorem treesText_concat (coloured split : Bool) (ts : List ProofTree) (t : ProofTree) :
    treesText coloured split (ts ++ [t]) =
      treesText coloured split ts ++ treeText coloured split ts.length t := by
  rw [treesText, List.mapIdx_concat, String.join_append, String.join_cons, String.join_nil,
    String.append_empty]
  rfl

/-- Every tree but the first follows an empty line. -/
theorem shownLines_cons (split : Bool) (t : ProofTree) (ts : List ProofTree) :
    shownLines split (t :: ts) =
      t.shownLines split ++ ts.flatMap fun u => ⟨0, ""⟩ :: u.shownLines split := by
  induction ts generalizing t with
  | nil => exact List.intercalate_singleton.trans (List.append_nil _).symm
  | cons u ts ih =>
      have hnext : shownLines split (t :: u :: ts) =
          t.shownLines split ++ [⟨0, ""⟩] ++ shownLines split (u :: ts) :=
        List.intercalate_cons_cons
      rw [hnext, ih, List.flatMap_cons, List.append_assoc]
      rfl

/-- One more tree has its lines behind the others, and an empty line if there are
    any. -/
theorem shownLines_concat (split : Bool) (ts : List ProofTree) (t : ProofTree) :
    shownLines split (ts ++ [t]) =
      shownLines split ts ++ ((if ts.length = 0 then [] else [⟨0, ""⟩]) ++ t.shownLines split) := by
  cases ts with
  | nil => exact List.intercalate_singleton
  | cons u ts =>
      rw [List.cons_append, shownLines_cons, shownLines_cons, List.flatMap_append,
        List.append_assoc]
      exact congrArg _ (congrArg _ (List.append_nil _))

/-! ## Without colours -/

/-- An outline without colours is its lines. -/
theorem outlineText_plain (t : ProofTree) : outlineText false t = linesText (t.linesAt 0) := by
  have hlines := Line.flatMap_chars_concat (t.linesAt 0)
  rw [t.toList_outline, List.cons_append] at hlines
  rw [← String.toList_inj, linesText, String.toList_ofList, ← (List.cons.inj hlines).2]
  exact String.toList_append

/-- The derivations without colours are their lines. -/
theorem derivationsText_plain (total i : Nat) (ds : List ProofTree) :
    derivationsText false total i ds = linesText ((ds.zipIdx i).flatMap fun d =>
      ⟨0, "derivation " ++ toString d.2 ++ "/" ++ toString total⟩ :: d.1.linesAt 0) := by
  induction ds generalizing i with
  | nil => rfl
  | cons d ds ih =>
      have hnext : derivationsText false total i (d :: ds) =
          "derivation " ++ toString i ++ "/" ++ toString total ++ "\n" ++ outlineText false d ++
            derivationsText false total (i + 1) ds := rfl
      rw [hnext, ih, List.zipIdx_cons, List.flatMap_cons, linesText_append, linesText_cons,
        linesText_first, outlineText_plain]

theorem treeText_plain (split : Bool) (index : Nat) (t : ProofTree) :
    treeText false split index t =
      linesText ((if index = 0 then [] else [⟨0, ""⟩]) ++ t.shownLines split) := by
  have hbetween : (if index = 0 then "" else "\n") =
      linesText (if index = 0 then [] else [⟨0, ""⟩]) := by
    split <;> rfl
  -- the summary is one line, which ends with the text
  have hsummary : summary t = linesText [⟨0, t.verdict⟩] := by
    rw [linesText_first, summary, ProofTree.verdict]
    simp only [String.append_assoc]
    rfl
  rw [treeText, hbetween, hsummary, linesText_append, ProofTree.shownLines, linesText_append]
  cases split with
  | false =>
      show _ ++ (outlineText false t ++ _) = _
      rw [outlineText_plain]
      rfl
  | true =>
      show _ ++ (derivationsText false t.split.length 1 t.split ++ _) = _
      rw [derivationsText_plain]
      rfl

/-- What is printed of trees without colours is their lines. -/
theorem treesText_plain (split : Bool) (ts : List ProofTree) :
    treesText false split ts = linesText (shownLines split ts) := by
  induction ts using List.reverseRecOn with
  | nil => rfl
  | append_singleton ts t ih =>
      rw [treesText_concat, shownLines_concat, linesText_append, ih, treeText_plain]

/-! ## In colour -/

theorem not_mem_toString {c : Char} (hc : c.toNat < 32) (n : Nat) : c ∉ (toString n).toList := by
  rw [Nat.toString_eq_ofList_toDigits, String.toList_ofList]
  exact not_mem_toDigits (isDigit_eq_false hc) n

/-- The nodes of a derivation have the sequents of nodes of its tree. -/
theorem ProofTree.exists_hasNode_of_mem_split (t : ProofTree) :
    ∀ d ∈ t.split, ∀ u, d.HasNode u → ∃ v, t.HasNode v ∧ v.root = u.root := by
  induction t using ProofTree.induction with
  | node root branches grown ih =>
      intro d hd u hu
      cases grown with
      | false => exact ⟨u, List.mem_singleton.mp hd ▸ hu, rfl⟩
      | true =>
          rcases mem_split_node.mp hd with ⟨-, rfl⟩ | ⟨ts, us, hb, hus, rfl⟩
          · cases hu with
            | root => exact ⟨_, .root _, rfl⟩
            | child hb hc _ =>
                rw [List.mem_singleton.mp hb] at hc
                cases hc
          · cases hu with
            | root => exact ⟨_, .root _, rfl⟩
            | child hb' hc hu =>
                rw [List.mem_singleton.mp hb'] at hc
                -- the premise is a derivation of a premise of the tree
                obtain ⟨t, ht, hsplit⟩ := forall₂_exists_left hus hc
                obtain ⟨v, hv, hroot⟩ := ih _ hb t ht _ hsplit u hu
                exact ⟨v, .child hb ht hv, hroot⟩

/-- So a derivation has no other names than its tree. -/
theorem ProofTree.NamesLack.of_mem_split {c : Char} {t d : ProofTree} (h : t.NamesLack c)
    (hd : d ∈ t.split) : d.NamesLack c := by
  intro u hu
  obtain ⟨v, hv, hroot⟩ := t.exists_hasNode_of_mem_split d hd u hu
  exact hroot ▸ h v hv

/-- Deleting the sequences of an outline leaves the outline without colours. -/
theorem leaves_outlineText (coloured : Bool) {t : ProofTree} (h : t.NamesLack '\x1b') :
    Leaves (outlineText coloured t) (outlineText false t) := by
  have hlacks : t.styled.Lacks '\x1b' := t.lacks_styledAt (by decide) (by decide) h 0
  refine Leaves.append ?_ (leaves_of_not_mem (by decide))
  cases coloured with
  | false => exact leaves_of_not_mem hlacks.not_mem_plain
  | true => exact Styled.leaves_coloured hlacks

theorem leaves_derivationsText (coloured : Bool) (total i : Nat) {ds : List ProofTree}
    (h : ∀ d ∈ ds, d.NamesLack '\x1b') :
    Leaves (derivationsText coloured total i ds) (derivationsText false total i ds) := by
  induction ds generalizing i with
  | nil => exact fun _ => rfl
  | cons d ds ih =>
      obtain ⟨hd, hds⟩ := List.forall_mem_cons.mp h
      have hnumber : ∀ n : Nat, Leaves (toString n) (toString n) :=
        fun n => leaves_of_not_mem (not_mem_toString (by decide) n)
      have hlabel := ((((leaves_of_not_mem (s := "derivation ") (by decide)).append
        (hnumber i)).append (leaves_of_not_mem (s := "/") (by decide))).append
        (hnumber total)).append (leaves_of_not_mem (s := "\n") (by decide))
      exact (hlabel.append (leaves_outlineText coloured hd)).append (ih (i + 1) hds)

theorem leaves_summary (t : ProofTree) : Leaves (summary t) (summary t) := by
  have hword : '\x1b' ∉ (if t.isClosed then "closed" else "open").toList := by
    split <;> decide
  have hnumber := not_mem_toString (c := '\x1b') (by decide)
  have hcount : '\x1b' ∉ " alternative derivation(s), depth ".toList := by decide
  have hleaves : '\x1b' ∉ " leaves)\n".toList := by decide
  refine leaves_of_not_mem ?_
  simp only [summary, String.toList_append, List.mem_append, not_or]
  exact ⟨⟨⟨⟨⟨⟨⟨hword, by decide⟩, hnumber _⟩, hcount⟩, hnumber _⟩, by decide⟩, hnumber _⟩, hleaves⟩

/-- The same holds for what is printed of a tree. -/
theorem leaves_treeText (coloured split : Bool) (index : Nat) {t : ProofTree}
    (h : t.NamesLack '\x1b') :
    Leaves (treeText coloured split index t) (treeText false split index t) := by
  have hbetween : '\x1b' ∉ (if index = 0 then "" else "\n").toList := by
    split <;> decide
  refine (leaves_of_not_mem hbetween).append (Leaves.append ?_ (leaves_summary t))
  cases split with
  | false => exact leaves_outlineText coloured h
  | true => exact leaves_derivationsText coloured _ 1 fun d hd => h.of_mem_split hd

/-- And it holds for what is printed of trees. -/
theorem leaves_treesText (coloured split : Bool) {ts : List ProofTree}
    (h : ∀ t ∈ ts, t.NamesLack '\x1b') :
    Leaves (treesText coloured split ts) (treesText false split ts) := by
  induction ts using List.reverseRecOn with
  | nil => exact fun _ => rfl
  | append_singleton ts t ih =>
      obtain ⟨hts, ht⟩ := List.forall_mem_append.mp h
      rw [treesText_concat, treesText_concat]
      exact (ih hts).append (leaves_treeText coloured split _ (ht t (List.mem_singleton.mpr rfl)))

/-- What is printed of trees shows them. -/
theorem shows_treesText (coloured split : Bool) (ts : List ProofTree) :
    Shows coloured split ts (treesText coloured split ts) := by
  constructor
  · rintro rfl
    exact treesText_plain split ts
  · intro h
    rw [(leaves_treesText coloured split h).withoutColours_eq, treesText_plain]

end SequentCalculus
