import SequentCalculus.Proofs.Binary
import SequentCalculus.Proofs.Derivations
import SequentCalculus.Proofs.Text

/-! # Trees that records keep

    A record drops the mark of grown nodes and the mark of atomic sequents, and
    keeps sequents as texts.  Reading restores all three, so the trees that records
    keep are those that pass the check of the binary format, have well-named
    sequents and no branch that only lacks premises
    (`ProofTree.toTree_toRecord_iff_check`).  Grown to the end or not, they are the
    trees that can be read from records at all (`TreeRecord.toTree_toRecord_of_toTree`). -/

namespace SequentCalculus

namespace ProofTree

/-- The check and the marks of atomic sequents together give every node one of
    the shapes. -/
theorem forall_isShaped_iff_check {t : ProofTree} :
    (∀ u, t.HasNode u → u.IsShaped) ↔
      t.check = .ok () ∧
        ∀ u, t.HasNode u → ∀ b ∈ u.branches, b.children = [] → b = .initial := by
  rw [check_eq_ok_iff]
  constructor
  · intro h
    exact ⟨fun u hu => ⟨(h u hu).grown, (h u hu).shape⟩, fun u hu => (h u hu).childless⟩
  · rintro ⟨hcheck, hchildless⟩ u hu
    exact ⟨(hcheck u hu).2, hchildless u hu, (hcheck u hu).1⟩

theorem toTree_toRecord_iff_check {t : ProofTree} :
    t.toRecord.toTree = .ok t ↔
      t.check = .ok () ∧
        (∀ u, t.HasNode u → ∀ b ∈ u.branches, b.children = [] → b = .initial) ∧
        ∀ u, t.HasNode u → u.root.WellNamed := by
  rw [← and_assoc, ← forall_isShaped_iff_check]
  constructor
  · intro h
    exact ⟨t.toRecord.isShaped_of_toTree h, t.toRecord.wellNamed_of_toTree h⟩
  · rintro ⟨hshaped, hnamed⟩
    exact t.toTree_toRecord fun u hu => ⟨hshaped u hu, hnamed u hu⟩

end ProofTree

/-- A tree that was read from a record is kept by its own. -/
theorem TreeRecord.toTree_toRecord_of_toTree {r : TreeRecord} {t : ProofTree}
    (h : r.toTree = .ok t) : t.toRecord.toTree = .ok t :=
  t.toTree_toRecord fun u hu => ⟨r.isShaped_of_toTree h u hu, r.wellNamed_of_toTree h u hu⟩

namespace ProofTree

theorem exists_toTree_of_ofText {text : String} {t : ProofTree} (h : ofText text = .ok t) :
    ∃ r : TreeRecord, r.toTree = .ok t := by
  unfold ofText at h
  split at h
  · rename_i r _
    exact ⟨r, h⟩
  · cases h

/-- **Records and texts keep trees, and give nothing else.**  A tree is read back
    from its record exactly if it passes the check, its branches without children
    mark atomic sequents and its sequents are well-named.  It is then read back
    from its text too, if the headers of the text have few enough keys; a depth
    below half the limit is enough.  In the other direction, whatever is read from
    a record or from a text conforms to decomposition at every node and is read
    back from its own record. -/
theorem records_roundtrip :
    (∀ t : ProofTree, t.toRecord.toTree = .ok t ↔
      t.check = .ok () ∧
        (∀ u, t.HasNode u → ∀ b ∈ u.branches, b.children = [] → b = .initial) ∧
        ∀ u, t.HasNode u → u.root.WellNamed) ∧
    (∀ t : ProofTree, t.check = .ok () →
      (∀ u, t.HasNode u → ∀ b ∈ u.branches, b.children = [] → b = .initial) →
      (∀ u, t.HasNode u → u.root.WellNamed) →
      (ofText t.toText = .ok t ↔ t.toRecord.nesting ≤ Toml.nestingLimit) ∧
      (2 * t.depth < Toml.nestingLimit → ofText t.toText = .ok t)) ∧
    (∀ (r : TreeRecord) (t : ProofTree), r.toTree = .ok t →
      (∀ u, t.HasNode u → u.Conforms) ∧ t.toRecord.toTree = .ok t) ∧
    ∀ (text : String) (t : ProofTree), ofText text = .ok t →
      (∀ u, t.HasNode u → u.Conforms) ∧ t.toRecord.toTree = .ok t := by
  -- what is read from a record, from a text or not, has the shape of growth
  have hread : ∀ (r : TreeRecord) (t : ProofTree), r.toTree = .ok t →
      (∀ u, t.HasNode u → u.Conforms) ∧ t.toRecord.toTree = .ok t := by
    intro r t h
    refine ⟨fun u hu => ?_, r.toTree_toRecord_of_toTree h⟩
    exact isShaped_iff_conforms.mp (r.isShaped_of_toTree h u hu)
  refine ⟨fun t => toTree_toRecord_iff_check, ?_, hread, ?_⟩
  · intro t hcheck hchildless hnamed
    have hkept := toTree_toRecord_iff_check.mpr ⟨hcheck, hchildless, hnamed⟩
    have htext := ofText_toText_eq_ok_iff.trans (and_iff_left hkept)
    refine ⟨htext, ?_⟩
    intro hdepth
    exact htext.mpr (Nat.le_trans t.nesting_toRecord_le hdepth)
  · intro text t h
    obtain ⟨r, hr⟩ := exists_toTree_of_ofText h
    exact hread r t hr

theorem records_roundtrip_partlyGrown :
    partlyGrown.check = .ok () ∧
      (∀ u, partlyGrown.HasNode u → ∀ b ∈ u.branches, b.children = [] → b = .initial) ∧
      (∀ u, partlyGrown.HasNode u → u.root.WellNamed) ∧
      partlyGrown.toRecord.toTree = .ok partlyGrown ∧
      ofText partlyGrown.toText = .ok partlyGrown ∧
      ∀ u, partlyGrown.HasNode u → u.Conforms := by
  have hchildless : ∀ u, partlyGrown.HasNode u →
      ∀ b ∈ u.branches, b.children = [] → b = .initial := by
    intro u hu
    rcases eq_of_hasNode_partlyGrown hu with rfl | rfl | rfl
    · simp [partlyGrown, branches, Branch.children]
    · simp [branches]
    · simp [ofSequent, branches]
  have hnamed : ∀ u, partlyGrown.HasNode u → u.root.WellNamed := by
    intro u hu
    rcases eq_of_hasNode_partlyGrown hu with rfl | rfl | rfl <;> decide
  obtain ⟨hrecord, htext, -, hread⟩ := records_roundtrip
  have hkept := (hrecord partlyGrown).mpr ⟨rfl, hchildless, hnamed⟩
  have hkept' := (htext partlyGrown rfl hchildless hnamed).2 (by decide)
  exact ⟨rfl, hchildless, hnamed, hkept, hkept', (hread _ _ hkept').1⟩

end ProofTree

end SequentCalculus
