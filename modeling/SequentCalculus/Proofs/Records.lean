import SequentCalculus.Proofs.Roundtrip
import SequentCalculus.Proofs.Shape

/-! # Records — which trees survive being written down

    A record keeps the texts of the sequents and the shape of the tree.  Reading
    it back parses every text and checks every shape, so a tree survives if its
    sequents are well-named and its branches have the shapes that decomposition
    produces (`ProofTree.toTree_toRecord`); and whatever is read has well-named
    sequents and such branches only (`TreeRecord.wellNamed_of_toTree`,
    `TreeRecord.isShaped_of_toTree`).

    Grown trees have these shapes, so for them the names decide. -/

namespace SequentCalculus

/-! ## Induction over records -/

/-- A property of records follows from the same property of the premises. -/
theorem TreeRecord.induction {motive : TreeRecord → Prop}
    (node : ∀ text branches, (∀ b ∈ branches, ∀ r ∈ b, motive r) →
      motive (.node text branches)) (r : TreeRecord) : motive r := by
  refine @TreeRecord.rec motive (fun bs => ∀ b ∈ bs, ∀ r ∈ b, motive r)
    (fun rs => ∀ r ∈ rs, motive r) node ?_ ?_ ?_ ?_ r
  · exact fun _ hb => nomatch hb
  · exact fun b bs hb hbs => List.forall_mem_cons.mpr ⟨hb, hbs⟩
  · exact fun _ hr => nomatch hr
  · exact fun r rs hr hrs => List.forall_mem_cons.mpr ⟨hr, hrs⟩

/-! ## What reading a record does -/

theorem recordTrees_eq_ok_iff {rs : List TreeRecord} {ts : List ProofTree} :
    recordTrees rs = .ok ts ↔ List.Forall₂ (fun r t => r.toTree = .ok t) rs ts := by
  induction rs generalizing ts with
  | nil =>
      rw [recordTrees, List.forall₂_nil_left_iff]
      exact ⟨fun h => by cases h; rfl, fun h => by rw [h]⟩
  | cons r rs ih =>
      rw [recordTrees, List.forall₂_cons_left_iff]
      constructor
      · intro h
        split at h
        · cases h
        · rename_i t ht
          split at h
          · cases h
          · rename_i ts' hts'
            cases h
            exact ⟨t, ts', ht, ih.mp hts', rfl⟩
      · rintro ⟨t, ts', ht, hts', rfl⟩
        rw [ht, ih.mpr hts']

/-- The branch that holds the given trees. -/
def Branch.ofTrees (ts : List ProofTree) : Branch ProofTree :=
  if ts.isEmpty then .initial else .premises ts

theorem Branch.children_ofTrees (ts : List ProofTree) : (Branch.ofTrees ts).children = ts := by
  cases ts <;> rfl

theorem recordBranches_eq_ok_iff {bs : List (List TreeRecord)}
    {branches : List (Branch ProofTree)} :
    recordBranches bs = .ok branches ↔
      List.Forall₂ (fun b branch => ∃ ts, recordTrees b = .ok ts ∧ branch = .ofTrees ts)
        bs branches := by
  induction bs generalizing branches with
  | nil =>
      rw [recordBranches, List.forall₂_nil_left_iff]
      exact ⟨fun h => by cases h; rfl, fun h => by rw [h]⟩
  | cons b bs ih =>
      rw [recordBranches, List.forall₂_cons_left_iff]
      constructor
      · intro h
        split at h
        · cases h
        · rename_i ts hts
          split at h
          · cases h
          · rename_i rest hrest
            cases h
            exact ⟨_, rest, ⟨ts, hts, rfl⟩, ih.mp hrest, rfl⟩
      · rintro ⟨_, rest, ⟨ts, hts, rfl⟩, hrest, rfl⟩
        rw [hts, ih.mpr hrest]
        rfl

/-- Reading a record succeeds if the text of the root is read as a sequent, the
    branches have a shape for it and all of them are read. -/
theorem TreeRecord.toTree_node_eq_ok_iff {text : String} {bs : List (List TreeRecord)}
    {t : ProofTree} :
    (TreeRecord.node text bs).toTree = .ok t ↔
      ∃ root branches, Sequent.parse text = .ok root ∧
        isShape root (bs.map List.length) = true ∧ recordBranches bs = .ok branches ∧
        t = .ofBranches root branches := by
  rw [TreeRecord.toTree]
  constructor
  · intro h
    split at h
    · cases h
    · rename_i root hroot
      split at h
      · cases h
      · rename_i hshape
        split at h
        · cases h
        · rename_i branches hbranches
          cases h
          exact ⟨root, branches, hroot, checkShape_eq_ok_iff.mp hshape, hbranches, rfl⟩
  · rintro ⟨root, branches, hroot, hshape, hbranches, rfl⟩
    simp only [hroot, checkShape_eq_ok_iff.mpr hshape, hbranches]

/-- Every node of a tree that was read was itself read from a record. -/
theorem TreeRecord.exists_toTree_of_hasNode (r : TreeRecord) :
    ∀ {t : ProofTree}, r.toTree = .ok t → ∀ u, t.HasNode u →
      ∃ r' : TreeRecord, r'.toTree = .ok u := by
  induction r using TreeRecord.induction with
  | node text bs ih =>
      intro t h u hu
      cases hu with
      | root => exact ⟨_, h⟩
      | child hb hc hu =>
          obtain ⟨root, branches, -, -, hbranches, rfl⟩ := toTree_node_eq_ok_iff.mp h
          obtain ⟨b, hmem, ts, hts, rfl⟩ :=
            forall₂_exists_left (recordBranches_eq_ok_iff.mp hbranches) hb
          rw [Branch.children_ofTrees] at hc
          obtain ⟨r, hr, hread⟩ := forall₂_exists_left (recordTrees_eq_ok_iff.mp hts) hc
          exact ih b hmem r hr hread u hu

/-- Every sequent of a tree that was read is well-named. -/
theorem TreeRecord.wellNamed_of_toTree (r : TreeRecord) {t : ProofTree} (h : r.toTree = .ok t) :
    ∀ u, t.HasNode u → u.root.WellNamed := by
  intro u hu
  obtain ⟨⟨text, bs⟩, hread⟩ := r.exists_toTree_of_hasNode h u hu
  obtain ⟨root, branches, hroot, -, -, rfl⟩ := toTree_node_eq_ok_iff.mp hread
  exact Sequent.wellNamed_of_parse hroot

/-- Branches that were read have as many premises as were written down. -/
theorem length_recordBranches {bs : List (List TreeRecord)} {branches : List (Branch ProofTree)}
    (h : recordBranches bs = .ok branches) :
    branches.map (fun b => b.children.length) = bs.map List.length := by
  refine (map_eq_map_of_forall₂ ?_).symm
  refine (recordBranches_eq_ok_iff.mp h).imp ?_
  rintro b _ ⟨ts, hts, rfl⟩
  rw [Branch.children_ofTrees]
  exact (recordTrees_eq_ok_iff.mp hts).length_eq

/-- Every node of a tree that was read has one of the shapes. -/
theorem TreeRecord.isShaped_of_toTree (r : TreeRecord) {t : ProofTree} (h : r.toTree = .ok t) :
    ∀ u, t.HasNode u → u.IsShaped := by
  intro u hu
  obtain ⟨⟨text, bs⟩, hread⟩ := r.exists_toTree_of_hasNode h u hu
  obtain ⟨root, branches, -, hshape, hbranches, rfl⟩ := toTree_node_eq_ok_iff.mp hread
  rw [← length_recordBranches hbranches] at hshape
  refine ⟨hshape, ?_, rfl⟩
  intro b hb hnil
  obtain ⟨_, -, ts, -, rfl⟩ := forall₂_exists_left (recordBranches_eq_ok_iff.mp hbranches) hb
  rw [Branch.children_ofTrees] at hnil
  rw [hnil]
  rfl

/-! ## Writing a tree and reading it back -/

theorem ProofTree.toRecord_node (root : Sequent) (branches : List (Branch ProofTree))
    (grown : Bool) :
    (ProofTree.node root branches grown).toRecord =
      .node root.display (branches.map fun b => b.children.map toRecord) := by
  unfold toRecord
  rw [fold_node, List.map_map]
  simp only [Function.comp_def, Branch.children_map]

/-- A tree of such shapes with well-named sequents survives. -/
theorem ProofTree.toTree_toRecord (t : ProofTree)
    (h : ∀ u, t.HasNode u → u.IsShaped ∧ u.root.WellNamed) : t.toRecord.toTree = .ok t := by
  induction t using ProofTree.induction with
  | node root branches grown ih =>
      obtain ⟨⟨hshape, hchildless, hgrown⟩, hnamed⟩ := h _ (.root _)
      rw [toRecord_node, TreeRecord.toTree_node_eq_ok_iff]
      refine ⟨root, branches, Sequent.parse_display hnamed, ?_, ?_, ?_⟩
      · rw [List.map_map]
        simp only [Function.comp_def, List.length_map]
        exact hshape
      · rw [recordBranches_eq_ok_iff, List.forall₂_map_left_iff, List.forall₂_same]
        intro b hb
        refine ⟨b.children, ?_, ?_⟩
        · rw [recordTrees_eq_ok_iff, List.forall₂_map_left_iff, List.forall₂_same]
          intro c hc
          exact ih b hb c hc fun u hu => h u (.child hb hc hu)
        · -- a branch without children is read as the mark
          have hinitial := hchildless b hb
          cases b with
          | initial => rfl
          | premises ts =>
              cases ts with
              | nil => exact hinitial rfl
              | cons t ts => rfl
      · rw [ofBranches, show grown = !branches.isEmpty from hgrown]

/-! ## Grown trees -/

/-- A grown tree survives being written down exactly if its sequents are
    well-named. -/
theorem Sequent.toTree_toRecord_iff {rules : RuleSet} {supply : Supply} {s : Sequent}
    {t : ProofTree} (h : s.grow rules supply = .ok t) :
    t.toRecord.toTree = .ok t ↔ ∀ u, t.HasNode u → u.root.WellNamed := by
  constructor
  · exact fun hread => t.toRecord.wellNamed_of_toTree hread
  · intro hnamed
    refine t.toTree_toRecord fun u hu => ⟨?_, hnamed u hu⟩
    obtain ⟨supply', -, hgrow⟩ := Sequent.reaches_of_hasNode h hu
    exact Sequent.isShaped_of_grow hgrow

end SequentCalculus
