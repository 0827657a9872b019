import Mathlib.Data.List.Induction
import SequentCalculus.Proofs.Numbering

/-! # Ancestors — the paths above a path

    A path without its last part is its parent.  The parent is the beginning of the
    text up to the end of the part before, so its segments are the first ones of the
    path (`Path.segmentsFrom_take`), and what stands above the parent stands above
    the path (`Path.exists_parent`). -/

namespace SequentCalculus

namespace Path

/-- Up to the end of a segment, a text has the segments up to this one. -/
theorem segmentsFrom_take {cs : List Char} {pos : Nat} {front back : List (List Char × Nat)}
    {s : List Char} {stop : Nat} (h : segmentsFrom pos cs = front ++ (s, stop) :: back) :
    pos ≤ stop ∧ stop ≤ pos + cs.length ∧
      segmentsFrom pos (cs.take (stop - pos)) = front ++ [(s, stop)] := by
  induction cs generalizing pos front s with
  | nil =>
      cases front with
      | nil =>
          cases h
          exact ⟨Nat.le_refl _, Nat.le_refl _, by rw [List.take_nil]; rfl⟩
      | cons x front => cases front <;> cases h
  | cons c cs ih =>
      -- up to a later stop the first character is kept
      have htake : ∀ {stop}, pos + 1 ≤ stop →
          (c :: cs).take (stop - pos) = c :: cs.take (stop - (pos + 1)) := by
        intro stop hstop
        obtain ⟨n, rfl⟩ := Nat.exists_eq_add_of_le hstop
        rw [show pos + 1 + n - pos = n + 1 by omega, Nat.add_sub_cancel_left, List.take_succ_cons]
      rw [List.length_cons]
      by_cases hc : c = '/'
      · subst hc
        rw [segmentsFrom_slash] at h
        cases front with
        | nil =>
            cases h
            refine ⟨Nat.le_refl _, by omega, ?_⟩
            rw [Nat.sub_self]
            rfl
        | cons x front =>
            obtain ⟨rfl, hrest⟩ := List.cons.inj h
            obtain ⟨hpos, hlength, hsegments⟩ := ih hrest
            refine ⟨by omega, by omega, ?_⟩
            rw [htake hpos, segmentsFrom_slash, hsegments]
            rfl
      · -- the character goes to the segment that follows
        obtain ⟨s', stop', rest, hcs, hcons⟩ := exists_segmentsFrom_cons hc pos cs
        rw [hcons] at h
        have hwith : ∀ {cs' : List Char} {tail : List (List Char × Nat)},
            segmentsFrom (pos + 1) cs' = (s', stop') :: tail →
            segmentsFrom pos (c :: cs') = (c :: s', stop') :: tail := by
          intro cs' tail hcs'
          rw [segmentsFrom, if_neg hc, hcs']
        cases front with
        | nil =>
            cases h
            obtain ⟨hpos, hlength, hsegments⟩ := ih (hcs.trans (List.nil_append _).symm)
            refine ⟨by omega, by omega, ?_⟩
            rw [htake hpos]
            exact hwith hsegments
        | cons x front =>
            obtain ⟨rfl, hrest⟩ := List.cons.inj h
            have hfront : segmentsFrom (pos + 1) cs =
                ((s', stop') :: front) ++ (s, stop) :: back := by
              rw [hcs, hrest]
              rfl
            obtain ⟨hpos, hlength, hsegments⟩ := ih hfront
            refine ⟨by omega, by omega, ?_⟩
            rw [htake hpos]
            exact hwith hsegments

/-- The segment is a part where these segments stand before it. -/
def IsPart (front : List (List Char × Nat)) (s : List Char) : Prop :=
  counts s = true ∨ front = [] ∧ s = ['.']

instance (front : List (List Char × Nat)) (s : List Char) : Decidable (IsPart front s) :=
  inferInstanceAs (Decidable (_ ∨ _))

/-- The parts of one more segment are those before it, and the segment if it
    counts. -/
theorem partsOf_concat (front : List (List Char × Nat)) (x : List Char × Nat) :
    partsOf (front ++ [x]) = if IsPart front x.1 then partsOf front ++ [x] else partsOf front := by
  cases front with
  | nil =>
      show (if x.1 == ['.'] then [x] else [x].filter _) = _
      -- alone, a point is a part even though it does not count
      by_cases hdot : x.1 = ['.']
      · rw [if_pos (beq_iff_eq.mpr hdot), if_pos (.inr ⟨rfl, hdot⟩)]
        rfl
      · rw [if_neg (fun h => hdot (beq_iff_eq.mp h)), List.filter_singleton]
        by_cases hcounts : counts x.1 = true
        · rw [hcounts, if_pos (.inl hcounts)]
          rfl
        · rw [Bool.not_eq_true] at hcounts
          have hnot : ¬IsPart [] x.1 := by
            rintro (h | ⟨-, h⟩)
            · rw [hcounts] at h
              cases h
            · exact hdot h
          rw [hcounts, if_neg hnot]
          rfl
  | cons first rest =>
      -- behind another segment only what counts is a part
      have hpart : IsPart (first :: rest) x.1 ↔ counts x.1 = true := by
        rw [IsPart]
        simp
      rw [List.cons_append, partsOf, partsOf, ← List.cons_append, List.filter_append,
        List.filter_append, List.filter_singleton]
      by_cases hcounts : counts x.1 = true
      · rw [if_pos (hpart.mpr hcounts), hcounts]
        split <;> rfl
      · rw [if_neg (fun h => hcounts (hpart.mp h)), Bool.not_eq_true _ |>.mp hcounts]
        simp

/-- Segments have no part among them, or a last one, after which nothing counts. -/
theorem partsOf_cases (front : List (List Char × Nat)) :
    (partsOf front = [] ∧ ∀ b ∈ front, counts b.1 = false) ∨
    ∃ front' x between, front = front' ++ x :: between ∧ IsPart front' x.1 ∧
      partsOf front = partsOf front' ++ [x] ∧ ∀ b ∈ between, counts b.1 = false := by
  induction front using List.reverseRecOn with
  | nil => exact .inl ⟨rfl, nofun⟩
  | append_singleton front x ih =>
      rw [partsOf_concat]
      by_cases hpart : IsPart front x.1
      · exact .inr ⟨front, x, [], rfl, hpart, if_pos hpart, nofun⟩
      · have hcounts : counts x.1 = false := Bool.eq_false_iff.mpr fun h => hpart (.inl h)
        have hmore : ∀ {bs : List (List Char × Nat)}, (∀ b ∈ bs, counts b.1 = false) →
            ∀ b ∈ bs ++ [x], counts b.1 = false := by
          intro bs hbs b hb
          rcases List.mem_append.mp hb with hb | hb
          · exact hbs b hb
          · rw [List.mem_singleton.mp hb]
            exact hcounts
        rw [if_neg hpart]
        rcases ih with ⟨hnil, hblank⟩ | ⟨front', y, between, rfl, hy, hparts, hblank⟩
        · exact .inl ⟨hnil, hmore hblank⟩
        · refine .inr ⟨front', y, between ++ [x], ?_, hy, hparts, hmore hblank⟩
          rw [List.append_assoc, List.cons_append]

/-- The path that stands above all others: the root, or the empty path. -/
def top (p : Path) : Path := ⟨if p.isAbsolute then "/" else ""⟩

/-- The path up to the end of one of its segments. -/
def upTo (p : Path) (stop : Nat) : Path := ⟨String.ofList (p.text.toList.take stop)⟩

/-- Above a path stand the paths to its parts but the last, the longest first, and at
    the end the top. -/
theorem ancestors_of_parts {p : Path} {front : List (List Char × Nat)} {x : List Char × Nat}
    (h : p.parts = front ++ [x]) :
    p.ancestors = front.reverse.map (fun y => p.upTo y.2) ++ [p.top] := by
  rw [ancestors, h, List.reverse_concat]
  rfl

/-- Nothing stands above the top. -/
theorem ancestors_top (p : Path) : p.top.ancestors = [] := by
  rw [top]
  cases p.isAbsolute <;> rfl

theorem mem_of_mem_partsOf {front : List (List Char × Nat)} {x : List Char × Nat}
    (h : x ∈ partsOf front) : x ∈ front := by
  cases front with
  | nil => exact h
  | cons first rest =>
      rw [partsOf] at h
      split at h
      · exact (List.mem_cons.mp h).elim (fun heq => heq ▸ List.mem_cons_self) fun hmem =>
          List.mem_cons_of_mem _ (List.mem_filter.mp hmem).1
      · exact (List.mem_filter.mp h).1

/-- Up to the end of a part, a path is not empty, has the segments up to this part and
    begins where the whole path begins. -/
theorem segmentsFrom_upTo {p : Path} {front back : List (List Char × Nat)}
    {x : List Char × Nat} (h : segmentsFrom 0 p.text.toList = front ++ x :: back)
    (hx : IsPart front x.1) :
    (p.upTo x.2).text ≠ "" ∧ segmentsFrom 0 (p.upTo x.2).text.toList = front ++ [x] ∧
      (p.upTo x.2).isAbsolute = p.isAbsolute := by
  obtain ⟨-, -, hsegments⟩ := segmentsFrom_take h
  rw [Nat.sub_zero] at hsegments
  have hne : p.text.toList.take x.2 ≠ [] := by
    intro hnil
    rw [hnil] at hsegments
    -- an empty text has one segment, and that is no part
    cases front with
    | nil =>
        have hempty : [] = x.1 := congrArg Prod.fst (List.cons.inj hsegments).1
        rw [← hempty] at hx
        revert hx
        decide
    | cons y front => cases front <;> cases hsegments
  have hpos : x.2 ≠ 0 := by
    intro hzero
    rw [hzero] at hne
    exact hne rfl
  rw [isAbsolute, isAbsolute, upTo, String.toList_ofList, List.head?_take, if_neg hpos]
  exact ⟨fun hempty => hne (String.ofList_eq_empty_iff.mp hempty), hsegments, rfl⟩

/-- Above a path that ends with a part stands the path up to the part before it, or the
    top if there is none; and what stands above that one stands above the path. -/
theorem exists_parent {p : Path} {front : List (List Char × Nat)} {x : List Char × Nat}
    (hsegments : segmentsFrom 0 p.text.toList = front ++ [x]) (hx : IsPart front x.1) :
    (p.ancestors = [p.top] ∧ ∀ b ∈ front, counts b.1 = false) ∨
    ∃ front' y between, front = front' ++ y :: between ∧ IsPart front' y.1 ∧
      (∀ b ∈ between, counts b.1 = false) ∧ (p.upTo y.2).text ≠ "" ∧
      segmentsFrom 0 (p.upTo y.2).text.toList = front' ++ [y] ∧
      (p.upTo y.2).isAbsolute = p.isAbsolute ∧
      p.ancestors = p.upTo y.2 :: (p.upTo y.2).ancestors := by
  have hparts : p.parts = partsOf front ++ [x] := by
    rw [parts, hsegments, partsOf_concat, if_pos hx]
  rw [ancestors_of_parts hparts]
  rcases partsOf_cases front with ⟨hnil, hblank⟩ | ⟨front', y, between, rfl, hy, hfront, hblank⟩
  · refine .inl ⟨?_, hblank⟩
    rw [hnil]
    rfl
  · rw [List.append_assoc, List.cons_append] at hsegments
    obtain ⟨hne, hparent, habsolute⟩ := segmentsFrom_upTo hsegments hy
    refine .inr ⟨front', y, between, rfl, hy, hblank, hne, hparent, habsolute, ?_⟩
    have hparts' : (p.upTo y.2).parts = partsOf front' ++ [y] := by
      rw [parts, hparent, partsOf_concat, if_pos hy]
    -- what the path has up to an earlier part, its parent has too
    have htake : ∀ z ∈ (partsOf front').reverse,
        p.upTo z.2 = (p.upTo y.2).upTo z.2 := by
      intro z hz
      obtain ⟨before, after, heq⟩ := List.append_of_mem
        (mem_of_mem_partsOf (List.mem_reverse.mp hz))
      rw [heq, List.append_assoc, List.cons_append] at hparent
      obtain ⟨-, hlength, -⟩ := segmentsFrom_take hparent
      rw [upTo, String.toList_ofList, List.length_take] at hlength
      rw [upTo, upTo, upTo, String.toList_ofList, List.take_take, Nat.min_eq_left (by omega)]
    rw [ancestors_of_parts hparts', hfront, List.reverse_concat, List.map_cons,
      List.cons_append, List.map_congr_left htake, top, top, habsolute]

/-- What is followable up to its end is followable up to the end of any part. -/
theorem Followable.upTo {p : Path} (h : p.Followable) {stop : Nat}
    (hne : (p.upTo stop).text ≠ "") : (p.upTo stop).Followable := by
  have happend : p.text = (p.upTo stop).text ++ String.ofList (p.text.toList.drop stop) := by
    rw [Path.upTo, ← String.ofList_append, List.take_append_drop, String.ofList_toList]
  refine ⟨hne, fun hzero => h.zero ?_, Nat.le_trans ?_ h.size⟩
  · rw [happend, String.toList_append]
    exact List.mem_append_left _ hzero
  · rw [happend, String.utf8ByteSize_append]
    exact Nat.le_add_right _ _

/-- The path is the top, or it can be followed and ends with a part. -/
def EndsInPart (q : Path) : Prop :=
  (q.text = "" ∨ q.text = "/") ∨ (q.Followable ∧ ∃ front x,
    segmentsFrom 0 q.text.toList = front ++ [x] ∧ IsPart front x.1)

end Path

end SequentCalculus
