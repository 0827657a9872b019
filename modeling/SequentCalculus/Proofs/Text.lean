import SequentCalculus.ProofTree.Queries
import SequentCalculus.Proofs.Document
import SequentCalculus.Proofs.Records
import SequentCalculus.Storage.Text

/-! # The text of a tree — which trees survive as documents

    The headers of a document repeat the whole path to their table, two keys for
    each rule on the way, and a path may have only so many keys.  Apart from this
    every record is read back from its text (`TreeRecord.ofText?_toText`).

    So a grown tree survives as a document exactly if its sequents are well-named
    and it is not too deep (`Sequent.ofText_toText_iff`). -/

namespace SequentCalculus

open Toml

/-! ## The items of a record -/

mutual

/-- The items of a record whose tables stand below `path`. -/
def TreeRecord.items (path : List String) : TreeRecord → List Item
  | .node sequent branches =>
      .entry ["sequent"] (.string sequent) :: branchItems (path ++ ["branches"]) branches

/-- The items of branches whose tables have the header `header`. -/
def branchItems (header : List String) : List (List TreeRecord) → List Item
  | [] => []
  | b :: bs =>
      .elementHeader header :: premiseItems (header ++ ["premises"]) b ++ branchItems header bs

/-- The items of premises whose tables have the header `header`. -/
def premiseItems (header : List String) : List TreeRecord → List Item
  | [] => []
  | r :: rs => .elementHeader header :: r.items header ++ premiseItems header rs

end

theorem premiseItems_eq_flatMap (header : List String) (rs : List TreeRecord) :
    premiseItems header rs = rs.flatMap fun r => .elementHeader header :: r.items header := by
  induction rs with
  | nil => rfl
  | cons r rs ih => rw [premiseItems, ih, List.flatMap_cons]

theorem branchItems_eq_flatMap (header : List String) (bs : List (List TreeRecord)) :
    branchItems header bs = bs.flatMap fun b =>
      .elementHeader header :: premiseItems (header ++ ["premises"]) b := by
  induction bs with
  | nil => rfl
  | cons b bs ih => rw [branchItems, ih, List.flatMap_cons]

/-! ## Reading the lines -/

theorem isBare_sequent : IsBare "sequent" := ⟨by decide, List.all_eq_true.mp rfl⟩

theorem isBare_branches : IsBare "branches" := ⟨by decide, List.all_eq_true.mp rfl⟩

theorem isBare_premises : IsBare "premises" := ⟨by decide, List.all_eq_true.mp rfl⟩

/-- The text of a header with the given keys, none of which needs quotes. -/
structure IsHeader (header : String) (ks : List String) : Prop where
  text : header.toList = pathText ks
  ne_nil : ks ≠ []
  bare : ∀ k ∈ ks, IsBare k

namespace IsHeader

variable {header : String} {ks : List String}

/-- The header below another has one key more. -/
theorem below (h : IsHeader header ks) {k suffix : String} (hk : IsBare k)
    (hsuffix : suffix.toList = '.' :: k.toList) : IsHeader (header ++ suffix) (ks ++ [k]) := by
  refine ⟨?_, ?_, ?_⟩
  · rw [String.toList_append, h.text, hsuffix, pathText_concat h.ne_nil]
  · exact List.append_ne_nil_of_right_ne_nil _ (List.cons_ne_nil k [])
  · exact List.forall_mem_append.mpr ⟨h.bare, List.forall_mem_singleton.mpr hk⟩

/-- A header line is read as the header. -/
theorem reads (h : IsHeader header ks) :
    Reads ("\n[[" ++ header ++ "]]\n").toList [.elementHeader ks] := by
  have hreads := Reads.lineEnd.append (.elementHeader h.ne_nil h.bare)
  simpa [h.text] using hreads

/-- The lines of premises are read as theirs. -/
theorem reads_premiseLines (h : IsHeader header ks) {rs : List TreeRecord}
    (hrs : ∀ r ∈ rs, Reads (r.lines (header ++ ".")).toList (r.items ks)) :
    Reads (premiseLines header rs).toList (premiseItems ks rs) := by
  induction rs with
  | nil => exact .nil
  | cons r rs ih =>
      obtain ⟨hr, hrest⟩ := List.forall_mem_cons.mp hrs
      rw [premiseLines, premiseItems, String.toList_append, String.toList_append]
      exact (h.reads.append hr).append (ih hrest)

/-- The lines of branches are read as theirs. -/
theorem reads_branchLines (h : IsHeader header ks) {bs : List (List TreeRecord)}
    (hbs : ∀ b ∈ bs, Reads (premiseLines (header ++ ".premises") b).toList
      (premiseItems (ks ++ ["premises"]) b)) :
    Reads (branchLines header bs).toList (branchItems ks bs) := by
  induction bs with
  | nil => exact .nil
  | cons b bs ih =>
      obtain ⟨hb, hrest⟩ := List.forall_mem_cons.mp hbs
      rw [branchLines, branchItems, String.toList_append, String.toList_append]
      exact (h.reads.append hb).append (ih hrest)

end IsHeader

/-- The lines of a record are read as its items. -/
theorem TreeRecord.reads_lines (r : TreeRecord) : ∀ {path : String} {ks : List String},
    IsHeader (path ++ "branches") (ks ++ ["branches"]) →
      Reads (r.lines path).toList (r.items ks) := by
  induction r using TreeRecord.induction with
  | node text bs ih =>
      intro path ks h
      have hentry : Reads ("sequent = " ++ quote text ++ "\n").toList
          [.entry ["sequent"] (.string text)] := by
        simpa using Reads.entry isBare_sequent text
      have hbranches : Reads (branchLines (path ++ "branches") bs).toList
          (branchItems (ks ++ ["branches"]) bs) := by
        refine h.reads_branchLines fun b hb => ?_
        have hpremises : IsHeader (path ++ "branches" ++ ".premises")
            (ks ++ ["branches"] ++ ["premises"]) := h.below isBare_premises rfl
        refine hpremises.reads_premiseLines fun r hr => ih b hb r hr ?_
        rw [String.append_assoc]
        exact hpremises.below isBare_branches rfl
      rw [lines, items, String.toList_append]
      exact hentry.append hbranches

/-! ## Building the tables -/

mutual

/-- The table of a record. -/
def TreeRecord.entries : TreeRecord → Entries
  | .node sequent branches =>
      [("sequent", .closed (.string sequent))] ++ listed "branches" (branchTables branches).reverse

/-- The tables of branches. -/
def branchTables : List (List TreeRecord) → List Entries
  | [] => []
  | b :: bs => listed "premises" (premiseTables b).reverse :: branchTables bs

/-- The tables of premises. -/
def premiseTables : List TreeRecord → List Entries
  | [] => []
  | r :: rs => r.entries :: premiseTables rs

end

theorem premiseTables_eq_map (rs : List TreeRecord) :
    premiseTables rs = rs.map TreeRecord.entries := by
  induction rs with
  | nil => rfl
  | cons r rs ih => rw [premiseTables, ih, List.map_cons]

theorem branchTables_eq_map (bs : List (List TreeRecord)) :
    branchTables bs = bs.map fun b => listed "premises" (premiseTables b).reverse := by
  induction bs with
  | nil => rfl
  | cons b bs ih => rw [branchTables, ih, List.map_cons]

/-- The items of premises fill a series. -/
theorem fills_premises {rs : List TreeRecord} (h : ∀ r ∈ rs, Fills (r.items ·) r.entries) :
    Fills (fun path => premiseItems (path ++ ["premises"]) rs)
      (listed "premises" (premiseTables rs).reverse) := by
  intro fs
  have hfresh : ([] : Entries).lookup "premises" = none := rfl
  obtain ⟨current, hfold⟩ := foldlM_list h fs hfresh (framePath fs)
  rw [← premiseItems_eq_flatMap, ← premiseTables_eq_map] at hfold
  exact ⟨current, hfold⟩

/-- The items of a record fill its table. -/
theorem TreeRecord.fills (r : TreeRecord) : Fills (r.items ·) r.entries := by
  induction r using TreeRecord.induction with
  | node text bs ih =>
      intro fs
      have hempty : ([] : Entries).lookup "sequent" = none := rfl
      have hentry := add_entry_framePath hempty (.string text) fs
      have hfresh : ([("sequent", .closed (.string text))] : Entries).lookup "branches" = none :=
        rfl
      obtain ⟨current, hfold⟩ :=
        foldlM_list (fun b hb => fills_premises (ih b hb)) fs hfresh (framePath fs)
      rw [← branchItems_eq_flatMap, ← branchTables_eq_map] at hfold
      refine ⟨current, ?_⟩
      show List.foldlM _ _ (items (framePath fs) (.node text bs)) = _
      rw [items, List.foldlM_cons, hentry]
      exact hfold

/-! ## Reading the tables -/

theorem recordsOf?_map {rs : List TreeRecord} {value : TreeRecord → Value}
    (h : ∀ r ∈ rs, recordOf? (value r) = some r) : recordsOf? (rs.map value) = some rs := by
  induction rs with
  | nil => rfl
  | cons r rs ih =>
      obtain ⟨hr, hrest⟩ := List.forall_mem_cons.mp h
      rw [List.map_cons, recordsOf?, hr, ih hrest]
      rfl

theorem branchesOf?_map {bs : List (List TreeRecord)} {value : List TreeRecord → Value}
    (h : ∀ b ∈ bs, branchOf? (value b) = some b) : branchesOf? (bs.map value) = some bs := by
  induction bs with
  | nil => rfl
  | cons b bs ih =>
      obtain ⟨hb, hrest⟩ := List.forall_mem_cons.mp h
      rw [List.map_cons, branchesOf?, hb, ih hrest]
      rfl

/-- The premises of a branch are read from the series. -/
theorem branchOf?_premises {rs : List TreeRecord}
    (h : ∀ r ∈ rs, recordOf? (.table (entriesValue r.entries)) = some r) :
    branchOf? (.table (entriesValue (listed "premises" (premiseTables rs).reverse))) = some rs := by
  cases rs with
  | nil => rfl
  | cons r rs =>
      have hne : premiseTables (r :: rs) ≠ [] := List.cons_ne_nil _ _
      rw [entriesValue_listed_reverse hne, premiseTables_eq_map, List.map_map, branchOf?]
      exact recordsOf?_map h

/-- The table of a record is read as the record. -/
theorem TreeRecord.recordOf?_entries (r : TreeRecord) :
    recordOf? (.table (entriesValue r.entries)) = some r := by
  induction r using TreeRecord.induction with
  | node text bs ih =>
      cases bs with
      | nil => rfl
      | cons b bs =>
          have hne : branchTables (b :: bs) ≠ [] := List.cons_ne_nil _ _
          have hbranches := branchesOf?_map fun b hb => branchOf?_premises (ih b hb)
          rw [entries, List.singleton_append, entriesValue, entriesValue_listed_reverse hne,
            branchTables_eq_map, List.map_map, recordOf?]
          show (branchesOf? _).bind _ = _
          rw [Function.comp_def, hbranches]
          rfl

/-! ## The length of the headers -/

/-- Below a path that is not too long, the items fit if `n` more keys do. -/
def Spans (items : List String → List Item) (n : Nat) : Prop :=
  ∀ ks : List String, ks.length ≤ nestingLimit →
    ((∀ i ∈ items ks, i.Fits) ↔ ks.length + n ≤ nestingLimit)

/-- The headers of a list of tables add one key. -/
theorem fits_list {α : Type} {items : α → List String → List Item} {span : α → Nat}
    {as : List α} (h : ∀ a ∈ as, Spans (items a) (span a)) (k : String) {ks : List String}
    (hks : ks.length ≤ nestingLimit) :
    (∀ i ∈ as.flatMap fun a => .elementHeader (ks ++ [k]) :: items a (ks ++ [k]), i.Fits) ↔
      ks.length + largest (as.map fun a => 1 + span a) ≤ nestingLimit := by
  induction as with
  | nil => simpa [largest] using hks
  | cons a as ih =>
      obtain ⟨ha, has⟩ := List.forall_mem_cons.mp h
      have hlength : (ks ++ [k]).length = ks.length + 1 := by simp
      have hlargest : largest ((a :: as).map fun a => 1 + span a) =
          max (1 + span a) (largest (as.map fun a => 1 + span a)) := rfl
      have hheader : (Item.elementHeader (ks ++ [k])).Fits ↔ ks.length + 1 ≤ nestingLimit := by
        rw [← hlength]
        exact Iff.rfl
      rw [List.flatMap_cons, List.cons_append, List.forall_mem_cons, List.forall_mem_append,
        ih has, hheader, hlargest]
      constructor
      · rintro ⟨hfits, hitems, hothers⟩
        have hspan := (ha _ (hlength ▸ hfits)).mp hitems
        omega
      · intro hspan
        have hfits : (ks ++ [k]).length ≤ nestingLimit := by omega
        exact ⟨by omega, (ha _ hfits).mpr (by omega), by omega⟩

mutual

/-- The greatest number of keys that the headers of a record add to its path. -/
def TreeRecord.nesting : TreeRecord → Nat
  | .node _ branches => largest (branchNestings branches)

/-- The greatest number of keys that each branch adds. -/
def branchNestings : List (List TreeRecord) → List Nat
  | [] => []
  | b :: bs => (1 + largest (premiseNestings b)) :: branchNestings bs

/-- The greatest number of keys that each premise adds. -/
def premiseNestings : List TreeRecord → List Nat
  | [] => []
  | r :: rs => (1 + r.nesting) :: premiseNestings rs

end

theorem premiseNestings_eq_map (rs : List TreeRecord) :
    premiseNestings rs = rs.map fun r => 1 + r.nesting := by
  induction rs with
  | nil => rfl
  | cons r rs ih => rw [premiseNestings, ih, List.map_cons]

theorem branchNestings_eq_map (bs : List (List TreeRecord)) :
    branchNestings bs = bs.map fun b => 1 + largest (premiseNestings b) := by
  induction bs with
  | nil => rfl
  | cons b bs ih => rw [branchNestings, ih, List.map_cons]

/-- The headers of a record are as long as it is nested. -/
theorem TreeRecord.spans (r : TreeRecord) : Spans (r.items ·) r.nesting := by
  induction r using TreeRecord.induction with
  | node text bs ih =>
      have hpremises : ∀ b ∈ bs, Spans (fun ks => premiseItems (ks ++ ["premises"]) b)
          (largest (premiseNestings b)) := by
        intro b hb ks hks
        simp only [premiseItems_eq_flatMap, premiseNestings_eq_map]
        exact fits_list (ih b hb) "premises" hks
      intro ks hks
      have hentry : (Item.entry ["sequent"] (.string text)).Fits := by
        show 1 ≤ nestingLimit
        decide
      show (∀ i ∈ items ks (.node text bs), i.Fits) ↔ _
      rw [items, List.forall_mem_cons, branchItems_eq_flatMap, nesting, branchNestings_eq_map,
        fits_list hpremises "branches" hks]
      exact and_iff_right hentry

/-! ## Texts -/

/-- A record is read back from its text unless its headers are too long. -/
theorem TreeRecord.ofText?_toText (r : TreeRecord) :
    ofText? r.toText = if r.nesting ≤ nestingLimit then some r else none := by
  have hreads : Reads r.toText.toList (r.items []) := by
    refine r.reads_lines ⟨rfl, List.cons_ne_nil _ _, ?_⟩
    exact List.forall_mem_singleton.mpr isBare_branches
  have hmark : ∀ rest, r.toText.toList ≠ '\ufeff' :: rest := by
    intro rest h
    cases r
    simp [toText, lines] at h
  have hspan := r.spans [] (Nat.zero_le _)
  rw [List.length_nil, Nat.zero_add] at hspan
  obtain ⟨current, hfold⟩ := r.fills []
  have hfold : (r.items []).foldlM Assembly.add {} = some ⟨r.entries, current⟩ := hfold
  rw [ofText?, parse?_of_reads hreads hmark, hfold]
  by_cases hnesting : r.nesting ≤ nestingLimit
  · rw [if_pos (hspan.mpr hnesting), if_pos hnesting]
    exact r.recordOf?_entries
  · rw [if_neg fun h => hnesting (hspan.mp h), if_neg hnesting]

/-! ## Grown trees -/

namespace ProofTree

/-- A record is nested two levels deeper than those below it, one for the branch and
    one for the premise. -/
theorem nesting_toRecord_node (root : Sequent) (branches : List (Branch ProofTree))
    (grown : Bool) : (node root branches grown).toRecord.nesting =
      largest (branches.map fun b =>
        1 + largest (b.children.map fun c => 1 + c.toRecord.nesting)) := by
  rw [toRecord_node, TreeRecord.nesting, branchNestings_eq_map, List.map_map]
  simp only [Function.comp_def, premiseNestings_eq_map, List.map_map]

/-- A header has two keys for each rule on the way, and one for the branch of a
    leaf. -/
theorem nesting_toRecord_le (t : ProofTree) : t.toRecord.nesting ≤ 2 * t.depth + 1 := by
  induction t using ProofTree.induction with
  | node root branches grown ih =>
      rw [nesting_toRecord_node, largest_le_iff, List.forall_mem_map]
      intro b hb
      have hpremises : largest (b.children.map fun c => 1 + c.toRecord.nesting) ≤
          2 * (node root branches grown).depth := by
        rw [largest_le_iff, List.forall_mem_map]
        intro c hc
        have hdepth : c.depth < (node root branches grown).depth := depth_lt_node hb hc
        have hchild := ih b hb c hc
        omega
      omega

/-- If every node has a branch, the headers are as long as the tree is deep. -/
theorem nesting_toRecord (t : ProofTree) (h : ∀ u, t.HasNode u → u.branches ≠ []) :
    t.toRecord.nesting = 2 * t.depth + 1 := by
  induction t using ProofTree.induction with
  | node root branches grown ih =>
      have hchild : ∀ b ∈ branches, ∀ c ∈ b.children, c.toRecord.nesting = 2 * c.depth + 1 :=
        fun b hb c hc => ih b hb c hc fun u hu => h u (.child hb hc hu)
      refine Nat.le_antisymm (nesting_toRecord_le _) ?_
      have hbranch : ∀ b ∈ branches, 1 + largest (b.children.map fun c =>
          1 + c.toRecord.nesting) ≤ (node root branches grown).toRecord.nesting := by
        intro b hb
        rw [nesting_toRecord_node]
        exact le_largest (List.mem_map_of_mem hb)
      have hdepth : (node root branches grown).depth ≤
          ((node root branches grown).toRecord.nesting - 1) / 2 := by
        rw [depth_node, largest_le_iff, List.forall_mem_map]
        intro c hc
        obtain ⟨b, hb, hc⟩ := List.mem_flatMap.mp hc
        have hpremise : 1 + c.toRecord.nesting ≤
            largest (b.children.map fun c => 1 + c.toRecord.nesting) :=
          le_largest (List.mem_map_of_mem hc)
        have hle := hbranch b hb
        rw [hchild b hb c hc] at hpremise
        omega
      -- even a leaf has the header of its branch
      obtain ⟨b, hb⟩ := List.exists_mem_of_ne_nil _ (h _ (.root _))
      have hpositive := hbranch b hb
      omega

/-- A tree is read back from its text if it is read back from its record and its
    headers are short enough. -/
theorem ofText_toText_eq_ok_iff {t u : ProofTree} :
    ofText t.toText = .ok u ↔ t.toRecord.nesting ≤ nestingLimit ∧ t.toRecord.toTree = .ok u := by
  rw [ofText, toText, TreeRecord.ofText?_toText]
  by_cases hnesting : t.toRecord.nesting ≤ nestingLimit
  · rw [if_pos hnesting]
    exact (and_iff_right hnesting).symm
  · rw [if_neg hnesting]
    constructor
    · intro herror
      cases herror
    · intro hfits
      exact absurd hfits.1 hnesting

end ProofTree

/-- A grown tree is read back from its text exactly if its sequents are
    well-named and it is not too deep. -/
theorem Sequent.ofText_toText_iff {rules : RuleSet} {supply : Supply} {s : Sequent}
    {t : ProofTree} (h : s.grow rules supply = .ok t) :
    ProofTree.ofText t.toText = .ok t ↔
      (∀ u, t.HasNode u → u.root.WellNamed) ∧ 2 * t.depth < nestingLimit := by
  have hnesting : t.toRecord.nesting = 2 * t.depth + 1 := by
    refine t.nesting_toRecord fun u hu => ?_
    obtain ⟨supply', -, hgrow⟩ := Sequent.reaches_of_hasNode h hu
    exact Sequent.branches_ne_nil_of_grow hgrow
  rw [ProofTree.ofText_toText_eq_ok_iff, hnesting, Sequent.toTree_toRecord_iff h, and_comm]
  rfl

end SequentCalculus
