import Mathlib.Data.List.Nodup
import SequentCalculus.Proofs.Encoding
import SequentCalculus.Proofs.Shape
import SequentCalculus.Storage.Binary

/-! # The binary format — which trees survive, and what can be read

    A tree is written as two documents, one within the other.  Both are read
    back to the items they were written from as long as they are not nested too
    deep, and the envelope never is.  The items are read back to the fields and
    variants they were made of, so a tree that passes the check survives exactly
    if its own document is not nested too deep (`ProofTree.decode_encode`).

    In the other direction bytes may be anything, and only the check bounds what
    is read.  It compares numbers of premises, so a branch that lacks premises
    passes for the mark of an atomic sequent.  This is the one shape that
    decomposition does not produce and that can be read
    (`ProofTree.conforms_iff_of_decode`), and it closes any atomic sequent. -/

namespace SequentCalculus

open Cbor (Item Contents)

/-! ## Structures and variants -/

theorem mapM_map_eq_some {α β : Type} {f : β → Option α} {g : α → β} {as : List α}
    (h : ∀ a ∈ as, f (g a) = some a) : (as.map g).mapM f = some as := by
  induction as with
  | nil => rfl
  | cons a as ih =>
      have ha := h a List.mem_cons_self
      have has := ih fun b hb => h b (List.mem_cons_of_mem _ hb)
      rw [List.map_cons, List.mapM_cons, ha, has]
      rfl

/-- A text is determined by its bytes. -/
theorem utf8Bytes_inj {s t : String} (h : utf8Bytes s = utf8Bytes t) : s = t := by
  have hs := utf8Text?_utf8Bytes s
  rw [h, utf8Text?_utf8Bytes] at hs
  exact (Option.some.inj hs).symm

/-- A name refers to its position among different names. -/
theorem Cbor.Item.reference?_text {names : List String} (hnames : names.Nodup) {i : Nat}
    {name : String} (hi : names[i]? = some name) :
    (Item.text name).reference? names = some (.index i) := by
  obtain ⟨hlt, rfl⟩ := List.getElem?_eq_some_iff.mp hi
  have hfind : names.findIdx? (fun n => utf8Bytes n == utf8Bytes names[i]) = some i := by
    rw [List.findIdx?_eq_some_iff_getElem]
    refine ⟨hlt, beq_self_eq_true _, ?_⟩
    intro j hj heq
    have hji := (List.Nodup.getElem_inj_iff hnames).mp (utf8Bytes_inj (beq_iff_eq.mp heq))
    omega
  simp [Item.reference?, Item.untagged, hfind]

/-- The entries behind those collected already complete the fields. -/
theorem collectFields_append (front back : List (String × Item))
    (hnames : ((front ++ back).map Prod.fst).Nodup) :
    Cbor.collectFields ((front ++ back).map Prod.fst) (back.map fun f => (.text f.1, f.2))
        (front.map (fun f => some f.2) ++ back.map fun _ => none) =
      some ((front ++ back).map fun f => some f.2) := by
  induction back generalizing front with
  | nil => simp [Cbor.collectFields]
  | cons f back ih =>
      -- the name of `f` refers to the first place that is not filled yet
      have hget : ((front ++ f :: back).map Prod.fst)[front.length]? = some f.1 := by simp
      have href := Item.reference?_text hnames hget
      have hassoc : front ++ f :: back = (front ++ [f]) ++ back := by simp
      have hnext := ih (front ++ [f]) (by rw [← hassoc]; exact hnames)
      rw [← hassoc] at hnext
      rw [List.map_cons, Cbor.collectFields, href]
      simpa using hnext

/-- The fields of a structure are read back. -/
theorem fields?_itemOfFields (fields : List (String × Item))
    (hnames : (fields.map Prod.fst).Nodup) :
    (itemOfFields fields).fields? (fields.map Prod.fst) = some (fields.map Prod.snd) := by
  have hcollect : Cbor.collectFields (fields.map Prod.fst) (fields.map fun f => (.text f.1, f.2))
      ((fields.map Prod.fst).map fun _ => none) = some ((fields.map Prod.snd).map some) := by
    rw [List.map_map, List.map_map]
    exact collectFields_append [] fields hnames
  show (Cbor.collectFields (fields.map Prod.fst) (fields.map fun f => (.text f.1, f.2))
    ((fields.map Prod.fst).map fun _ => none) >>= fun found => found.mapM id) = _
  rw [hcollect]
  exact mapM_map_eq_some fun a _ => rfl

/-- A variant with contents is recognized by its name. -/
theorem variant?_itemOfVariant {names : List String} (hnames : names.Nodup) {i : Nat}
    {name : String} (hi : names[i]? = some name) (contents : Item) :
    (itemOfVariant name contents).variant? names = some (i, .entry contents) := by
  simp [itemOfVariant, Item.variant?, Item.reference?_text hnames hi]

/-- A variant without contents is recognized by its name. -/
theorem variant?_text {names : List String} (hnames : names.Nodup) {i : Nat}
    {name : String} (hi : names[i]? = some name) :
    (Item.text name).variant? names = some (i, .nothing) := by
  simp [Item.variant?, Item.reference?_text hnames hi]

@[simp] theorem Cbor.Item.string?_text (s : String) : (Item.text s).string? = some s := rfl

@[simp] theorem Cbor.Item.text?_text (s : String) : (Item.text s).text? = some s := rfl

@[simp] theorem Cbor.Item.array?_array (is : List Item) : (Item.array is).array? = some is := rfl

@[simp] theorem Cbor.Item.boolean?_boolean (b : Bool) : (Item.boolean b).boolean? = some b := rfl

/-! ## Reading what was written -/

/-- An atom is read back from its item. -/
theorem Atom.ofItem?_toItem (a : Atom) : Atom.ofItem? a.toItem = some a := by
  have hnames : ["predicate", "terms"].Nodup := by decide
  have hfields : a.toItem.fields? ["predicate", "terms"] =
      some [.text a.predicate, .array (a.terms.map .text)] :=
    fields?_itemOfFields [("predicate", .text a.predicate), ("terms", .array (a.terms.map .text))]
      hnames
  have hterms : (a.terms.map Item.text).mapM Item.string? = some a.terms :=
    mapM_map_eq_some fun t _ => rfl
  simp [Atom.ofItem?, hfields, hterms]

namespace Formula

/-- What stands under the name of a formula's form. -/
def contents : Formula → Item
  | atom a => a.toItem
  | negation p => p.toItem
  | binary _ p q => .array [p.toItem, q.toItem]
  | quantified _ x p => .array [.text x, p.toItem]

/-- The forms are listed in the order in which formulas are compared. -/
theorem variant?_toItem (p : Formula) :
    p.toItem.variant? formulaVariants = some (p.rank, .entry p.contents) := by
  have hnames : formulaVariants.Nodup := by decide
  cases p with
  | atom a => exact variant?_itemOfVariant hnames rfl _
  | negation p => exact variant?_itemOfVariant hnames rfl _
  | binary op p q => cases op <;> exact variant?_itemOfVariant hnames rfl _
  | quantified k x p => cases k <;> exact variant?_itemOfVariant hnames rfl _

/-- A formula is read back if there is room for as many descents as its
    connectives are nested. -/
theorem ofItem?_toItem {p : Formula} {room : Nat} (h : p.complexity < room) :
    ofItem? room p.toItem = some p := by
  induction p generalizing room with
  | atom a =>
      obtain ⟨room, rfl⟩ := Nat.exists_eq_succ_of_ne_zero (Nat.ne_zero_of_lt h)
      rw [ofItem?, variant?_toItem]
      simp [rank, connective?, contents, Contents.single?, Atom.ofItem?_toItem]
  | negation p ih =>
      obtain ⟨room, rfl⟩ := Nat.exists_eq_succ_of_ne_zero (Nat.ne_zero_of_lt h)
      rw [complexity] at h
      have hp := ih (show p.complexity < room by omega)
      rw [ofItem?, variant?_toItem]
      simp [rank, connective?, Connective.rank, contents, Contents.single?, hp]
  | binary op p q ihp ihq =>
      obtain ⟨room, rfl⟩ := Nat.exists_eq_succ_of_ne_zero (Nat.ne_zero_of_lt h)
      rw [complexity] at h
      have hp := ihp (show p.complexity < room by omega)
      have hq := ihq (show q.complexity < room by omega)
      rw [ofItem?, variant?_toItem]
      cases op <;> simp [rank, connective?, Connective.rank, contents, Contents.double?, hp, hq]
  | quantified k x p ih =>
      obtain ⟨room, rfl⟩ := Nat.exists_eq_succ_of_ne_zero (Nat.ne_zero_of_lt h)
      rw [complexity] at h
      have hp := ih (show p.complexity < room by omega)
      rw [ofItem?, variant?_toItem]
      cases k <;> simp [rank, connective?, Connective.rank, contents, Contents.double?, hp]

end Formula

/-- A sequent is read back from its item, if its formulas are not nested too deep. -/
theorem Sequent.ofItem?_toItem {s : Sequent}
    (h : ∀ p ∈ s.members, p.complexity < Cbor.nestingLimit) :
    Sequent.ofItem? s.toItem = some s := by
  have hnames : ["antecedent", "consequent"].Nodup := by decide
  have hfields : s.toItem.fields? ["antecedent", "consequent"] =
      some [.array (s.antecedent.map Formula.toItem), .array (s.consequent.map Formula.toItem)] :=
    fields?_itemOfFields [("antecedent", .array (s.antecedent.map Formula.toItem)),
      ("consequent", .array (s.consequent.map Formula.toItem))] hnames
  have hant : (s.antecedent.map Formula.toItem).mapM (Formula.ofItem? Cbor.nestingLimit) =
      some s.antecedent :=
    mapM_map_eq_some fun p hp => Formula.ofItem?_toItem (h p (List.mem_append_left _ hp))
  have hcon : (s.consequent.map Formula.toItem).mapM (Formula.ofItem? Cbor.nestingLimit) =
      some s.consequent :=
    mapM_map_eq_some fun p hp => Formula.ofItem?_toItem (h p (List.mem_append_right _ hp))
  simp [Sequent.ofItem?, hfields, hant, hcon]

/-- A branch is read back if its children are. -/
theorem branchOfItem?_branchItem {readTree : Item → Option ProofTree} {b : Branch ProofTree}
    (h : ∀ c ∈ b.children, readTree c.toItem = some c) :
    branchOfItem? readTree (branchItem (b.map ProofTree.toItem)) = some b := by
  have hnames : ["Axiom", "Premises"].Nodup := by decide
  cases b with
  | initial =>
      have hvariant : (Item.text "Axiom").variant? ["Axiom", "Premises"] = some (0, .nothing) :=
        variant?_text hnames rfl
      show branchOfItem? readTree (.text "Axiom") = _
      simp [branchOfItem?, hvariant, Contents.isUnit]
  | premises ts =>
      have hvariant : (itemOfVariant "Premises" (.array (ts.map ProofTree.toItem))).variant?
          ["Axiom", "Premises"] = some (1, .entry (.array (ts.map ProofTree.toItem))) :=
        variant?_itemOfVariant hnames rfl _
      have htrees : (ts.map ProofTree.toItem).mapM readTree = some ts := mapM_map_eq_some h
      show branchOfItem? readTree (itemOfVariant "Premises" (.array (ts.map ProofTree.toItem))) = _
      simp [branchOfItem?, hvariant, Contents.single?, htrees]

namespace ProofTree

/-- The item of a node has its sequent, its branches and the mark. -/
theorem toItem_node (root : Sequent) (branches : List (Branch ProofTree)) (grown : Bool) :
    (node root branches grown).toItem =
      itemOfFields [("root", root.toItem),
        ("branches", .array (branches.map fun b => branchItem (b.map toItem))),
        ("grown", .boolean grown)] := by
  unfold toItem
  rw [fold_node, List.map_map]
  rfl

/-- A tree is read back if there is room for its depth and for its formulas. -/
theorem ofItem?_toItem {t : ProofTree} {room : Nat} (hroom : t.depth < room)
    (h : ∀ u, t.HasNode u → ∀ p ∈ u.root.members, p.complexity < Cbor.nestingLimit) :
    ofItem? room t.toItem = some t := by
  induction t using ProofTree.induction generalizing room with
  | node root branches grown ih =>
      obtain ⟨room, rfl⟩ := Nat.exists_eq_succ_of_ne_zero (Nat.ne_zero_of_lt hroom)
      have hnames : ["root", "branches", "grown"].Nodup := by decide
      have hfields : (node root branches grown).toItem.fields? ["root", "branches", "grown"] =
          some [root.toItem, .array (branches.map fun b => branchItem (b.map toItem)),
            .boolean grown] := by
        rw [toItem_node]
        exact fields?_itemOfFields [("root", root.toItem),
          ("branches", .array (branches.map fun b => branchItem (b.map toItem))),
          ("grown", .boolean grown)] hnames
      have hroot : Sequent.ofItem? root.toItem = some root :=
        Sequent.ofItem?_toItem (h _ (.root _))
      have hbranches : (branches.map fun b => branchItem (b.map toItem)).mapM
          (branchOfItem? (ofItem? room)) = some branches := by
        refine mapM_map_eq_some fun b hb => branchOfItem?_branchItem fun c hc => ?_
        -- a premise is less deep, so the descent into it leaves room enough
        have hdepth : c.depth < (node root branches grown).depth := depth_lt_node hb hc
        exact ih b hb c hc (by omega) fun u hu => h u (.child hb hc hu)
      simp [ofItem?, hfields, hroot, hbranches]

end ProofTree

/-! ## Nesting -/

namespace Cbor

/-- An array is nested deeper than its items. -/
theorem nesting_lt_array {i : Item} {is : List Item} (h : i ∈ is) :
    i.nesting < (Item.array is).nesting := by
  have hle := itemsNesting_le_iff.mp (Nat.le_refl (itemsNesting is)) i h
  rw [Item.nesting]
  omega

/-- Fields are nested deeper than their values. -/
theorem nesting_lt_itemOfFields {fields : List (String × Item)} {f : String × Item}
    (h : f ∈ fields) : f.2.nesting < (itemOfFields fields).nesting := by
  have hmem : (Item.text f.1, f.2) ∈ fields.map fun f => (Item.text f.1, f.2) :=
    List.mem_map.mpr ⟨f, h, rfl⟩
  have hle : f.2.nesting ≤ entriesNesting (fields.map fun f => (Item.text f.1, f.2)) :=
    (entriesNesting_le_iff.mp (Nat.le_refl _) _ hmem).2
  show f.2.nesting < 1 + entriesNesting (fields.map fun f => (Item.text f.1, f.2))
  omega

/-- A variant adds one level to its contents. -/
theorem nesting_itemOfVariant (name : String) (contents : Item) :
    (itemOfVariant name contents).nesting = 1 + contents.nesting := by
  simp [itemOfVariant, Item.nesting, entriesNesting]

end Cbor

/-- Connectives are nested less deep than lists and maps in the encoding. -/
theorem Formula.complexity_lt_nesting (p : Formula) : p.complexity < p.toItem.nesting := by
  induction p with
  | atom a =>
      rw [toItem, Cbor.nesting_itemOfVariant, complexity]
      omega
  | negation p ih =>
      rw [toItem, Cbor.nesting_itemOfVariant, complexity]
      omega
  | binary op p q ihp ihq =>
      have hp := Cbor.nesting_lt_array (List.mem_cons_self (a := p.toItem) (l := [q.toItem]))
      have hq := Cbor.nesting_lt_array
        (List.mem_cons_of_mem p.toItem (List.mem_singleton_self q.toItem))
      rw [toItem, Cbor.nesting_itemOfVariant, complexity]
      omega
  | quantified k x p ih =>
      have hp := Cbor.nesting_lt_array
        (List.mem_cons_of_mem (.text x) (List.mem_singleton_self p.toItem))
      rw [toItem, Cbor.nesting_itemOfVariant, complexity]
      omega

/-- A sequent is nested deeper than its formulas. -/
theorem Sequent.nesting_lt_toItem {s : Sequent} {p : Formula} (h : p ∈ s.members) :
    p.toItem.nesting < s.toItem.nesting := by
  have hside : ∀ f ∈ [("antecedent", Item.array (s.antecedent.map Formula.toItem)),
      ("consequent", Item.array (s.consequent.map Formula.toItem))],
      f.2.nesting < s.toItem.nesting := fun f hf => Cbor.nesting_lt_itemOfFields hf
  rcases List.mem_append.mp h with h | h
  · have hp := Cbor.nesting_lt_array (List.mem_map_of_mem (f := Formula.toItem) h)
    exact Nat.lt_trans hp (hside ("antecedent", _) (by simp))
  · have hp := Cbor.nesting_lt_array (List.mem_map_of_mem (f := Formula.toItem) h)
    exact Nat.lt_trans hp (hside ("consequent", _) (by simp))

namespace ProofTree

variable {root : Sequent} {branches : List (Branch ProofTree)} {grown : Bool}

theorem nesting_root_lt : root.toItem.nesting < (node root branches grown).toItem.nesting := by
  rw [toItem_node]
  exact Cbor.nesting_lt_itemOfFields (f := ("root", root.toItem)) (by simp)

/-- A tree is nested deeper than its children. -/
theorem nesting_child_lt {b : Branch ProofTree} (hb : b ∈ branches) {c : ProofTree}
    (hc : c ∈ b.children) : c.toItem.nesting < (node root branches grown).toItem.nesting := by
  cases b with
  | initial => cases hc
  | premises ts =>
      have hpremises := Cbor.nesting_lt_array (List.mem_map_of_mem (f := toItem) hc)
      have hbranch := Cbor.nesting_lt_array
        (List.mem_map_of_mem (f := fun b : Branch ProofTree => branchItem (b.map toItem)) hb)
      have hvariant : (branchItem ((Branch.premises ts).map toItem)).nesting =
          1 + (Item.array (ts.map toItem)).nesting := Cbor.nesting_itemOfVariant _ _
      have hnode : (Item.array (branches.map fun b => branchItem (b.map toItem))).nesting <
          (node root branches grown).toItem.nesting := by
        rw [toItem_node]
        exact Cbor.nesting_lt_itemOfFields (f := ("branches", _)) (by simp)
      have hchildren : (Branch.premises ts).children = ts := rfl
      rw [hchildren] at hpremises
      omega

/-- A tree is nested deeper than it is high, so a limit on levels is a limit on the
    depth of trees. -/
theorem depth_lt_nesting (t : ProofTree) : t.depth < t.toItem.nesting := by
  induction t using ProofTree.induction with
  | node root branches grown ih =>
      have hpos : 0 < (node root branches grown).toItem.nesting :=
        Nat.lt_of_le_of_lt (Nat.zero_le _) nesting_root_lt
      have hle : (node root branches grown).depth ≤
          (node root branches grown).toItem.nesting - 1 := by
        refine depth_node_le ?_
        intro b hb c hc
        have hdepth := ih b hb c hc
        have hchild : c.toItem.nesting < (node root branches grown).toItem.nesting :=
          nesting_child_lt hb hc
        omega
      omega

/-- The formulas of a tree are nested less deep than the tree. -/
theorem complexity_lt_nesting {t u : ProofTree} (hu : t.HasNode u) {p : Formula}
    (hp : p ∈ u.root.members) : p.complexity < t.toItem.nesting := by
  induction hu with
  | root t =>
      obtain ⟨root, branches, grown⟩ := t
      calc p.complexity < p.toItem.nesting := p.complexity_lt_nesting
        _ < root.toItem.nesting := Sequent.nesting_lt_toItem hp
        _ < _ := nesting_root_lt
  | @child t c u b hb hc _ ih =>
      obtain ⟨root, branches, grown⟩ := t
      exact Nat.lt_trans (ih hp) (nesting_child_lt hb hc)

end ProofTree

/-! ## Canonical items -/

/-- Fields are canonical if their values are, as long as the head takes one byte. -/
theorem canonical_itemOfFields {fields : List (String × Item)} (hlength : fields.length < 24)
    (h : ∀ f ∈ fields, f.2.Canonical) : (itemOfFields fields).Canonical := by
  refine .map ?_ ?_ ?_
  · rw [List.length_map, decide_eq_true hlength]
  · intro e he
    obtain ⟨f, -, rfl⟩ := List.mem_map.mp he
    exact .text f.1
  · intro e he
    obtain ⟨f, hf, rfl⟩ := List.mem_map.mp he
    exact h f hf

theorem canonical_itemOfVariant {name : String} {contents : Item} (h : contents.Canonical) :
    (itemOfVariant name contents).Canonical := by
  refine .map rfl ?_ ?_
  · intro e he
    rw [List.mem_singleton.mp he]
    exact .text name
  · intro e he
    rw [List.mem_singleton.mp he]
    exact h

/-- An array is canonical if its items are. -/
theorem canonical_array_map {α : Type} {f : α → Item} {as : List α}
    (h : ∀ a ∈ as, (f a).Canonical) : (Item.array (as.map f)).Canonical := by
  refine .array ?_
  intro i hi
  obtain ⟨a, ha, rfl⟩ := List.mem_map.mp hi
  exact h a ha

theorem Atom.canonical_toItem (a : Atom) : a.toItem.Canonical := by
  refine canonical_itemOfFields (by simp) ?_
  intro f hf
  rcases List.mem_pair.mp hf with rfl | rfl
  · exact .text _
  · exact canonical_array_map fun t _ => .text t

/-- The item of a formula is one that encoding gives back. -/
theorem Formula.canonical_toItem (p : Formula) : p.toItem.Canonical := by
  induction p with
  | atom a => exact canonical_itemOfVariant a.canonical_toItem
  | negation p ih => exact canonical_itemOfVariant ih
  | binary op p q ihp ihq =>
      refine canonical_itemOfVariant (.array ?_)
      intro i hi
      rcases List.mem_pair.mp hi with rfl | rfl
      · exact ihp
      · exact ihq
  | quantified k x p ih =>
      refine canonical_itemOfVariant (.array ?_)
      intro i hi
      rcases List.mem_pair.mp hi with rfl | rfl
      · exact .text x
      · exact ih

theorem Sequent.canonical_toItem (s : Sequent) : s.toItem.Canonical := by
  refine canonical_itemOfFields (by simp) ?_
  intro f hf
  rcases List.mem_pair.mp hf with rfl | rfl
  · exact canonical_array_map fun p _ => p.canonical_toItem
  · exact canonical_array_map fun p _ => p.canonical_toItem

/-- The item of a tree is one that encoding gives back. -/
theorem ProofTree.canonical_toItem (t : ProofTree) : t.toItem.Canonical := by
  induction t using ProofTree.induction with
  | node root branches grown ih =>
      have hbranch : ∀ b ∈ branches, (branchItem (b.map toItem)).Canonical := by
        intro b hb
        cases b with
        | initial => exact .text "Axiom"
        | premises ts => exact canonical_itemOfVariant (canonical_array_map (ih _ hb))
      rw [toItem_node]
      refine canonical_itemOfFields (by simp) ?_
      intro f hf
      simp only [List.mem_cons, List.not_mem_nil, or_false] at hf
      rcases hf with rfl | rfl | rfl
      · exact root.canonical_toItem
      · exact canonical_array_map hbranch
      · exact .boolean grown

/-! ## Envelopes -/

/-- Bytes as a list of numbers. -/
def byteItems (bs : List UInt8) : Item := .array (bs.map fun b => .unsigned b.toNat)

/-- The item that an envelope is written from. -/
def envelopeItem (required : Requirement) (content : List UInt8) : Item :=
  itemOfFields
    [("magic", byteItems storageMagic), ("version_req", .text required.text),
      ("data", byteItems content)]

/-- Bytes are read back from their items. -/
theorem mapM_byte? (bs : List UInt8) :
    (bs.map fun b => Item.unsigned b.toNat).mapM Item.byte? = some bs := by
  refine mapM_map_eq_some fun b _ => ?_
  simp [Item.byte?, Item.untagged, b.toNat_lt]

theorem canonical_byteItems (bs : List UInt8) : (byteItems bs).Canonical :=
  canonical_array_map fun b _ => .unsigned (Nat.lt_trans b.toNat_lt (by decide))

/-- Bytes add one level, whatever they stand for. -/
theorem nesting_byteItems (bs : List UInt8) : (byteItems bs).nesting = 1 := by
  have hitems : Cbor.itemsNesting (bs.map fun b => Item.unsigned b.toNat) ≤ 0 := by
    rw [Cbor.itemsNesting_le_iff]
    intro i hi
    obtain ⟨b, -, rfl⟩ := List.mem_map.mp hi
    exact Nat.le_refl 0
  rw [byteItems, Item.nesting]
  omega

section

variable {required : Requirement} {content : List UInt8}

theorem canonical_envelopeItem : (envelopeItem required content).Canonical := by
  refine canonical_itemOfFields (by simp) ?_
  intro f hf
  simp only [List.mem_cons, List.not_mem_nil, or_false] at hf
  rcases hf with rfl | rfl | rfl
  · exact canonical_byteItems storageMagic
  · exact .text required.text
  · exact canonical_byteItems content

/-- The envelope has three levels, since the content is bytes to it. -/
theorem levels_envelopeItem : (envelopeItem required content).levels = 3 := by
  simp [envelopeItem, itemOfFields, Item.levels, Item.nesting, Cbor.entriesNesting,
    nesting_byteItems]

/-- Every byte of the content takes up at least one byte of the envelope. -/
theorem length_le_length_envelope : content.length ≤ (envelope required content).length := by
  have hcontent : content.length ≤ (byteItems content).encode.length := by
    have hbytes : ∀ i ∈ content.map fun b => Item.unsigned b.toNat, 0 < i.encode.length :=
      fun i _ => i.length_encode_pos
    have hle := Cbor.length_le_flatMap hbytes
    rw [List.length_map] at hle
    rw [byteItems, Item.encode, Cbor.encodeItems_eq_flatMap, List.length_append]
    omega
  have henvelope : (byteItems content).encode.length ≤ (envelope required content).length := by
    show _ ≤ (Cbor.Item.encode (.map true [(.text "magic", byteItems storageMagic),
      (.text "version_req", .text required.text), (.text "data", byteItems content)])).length
    simp only [Item.encode, Cbor.encodeEntries, List.length_append]
    omega
  omega

/-- The envelope is read back with its content unread. -/
theorem Envelope.ofBytes?_envelope
    (hrequired : Requirement.parse? required.text = some required)
    (hlength : (envelope required content).length < Cbor.lengthLimit) :
    Envelope.ofBytes? (envelope required content) = some ⟨storageMagic, required, content⟩ := by
  have hdecode : Cbor.decode? (envelope required content) =
      some (envelopeItem required content) := by
    show Cbor.decode? (envelopeItem required content).encode = _
    rw [Cbor.decode?_encode canonical_envelopeItem hlength, levels_envelopeItem]
    rfl
  have hnames : ["magic", "version_req", "data"].Nodup := by decide
  have hfields : (envelopeItem required content).fields? ["magic", "version_req", "data"] =
      some [byteItems storageMagic, .text required.text, byteItems content] :=
    fields?_itemOfFields [("magic", byteItems storageMagic),
      ("version_req", .text required.text), ("data", byteItems content)] hnames
  simp [Envelope.ofBytes?, hdecode, hfields, byteItems, mapM_byte?, hrequired, -List.mapM_map]

end

/-! ## Writing a tree and reading it back -/

/-- The version that files ask for is one that can be read. -/
theorem parse?_exactly_storageVersion :
    Requirement.parse? (Requirement.exactly storageVersion).text =
      some (.exactly storageVersion) := by
  decide +kernel

namespace ProofTree

/-- The document of a tree is read back unless it is nested too deep. -/
theorem ofContent?_encode {t : ProofTree} (hlength : t.toItem.encode.length < Cbor.lengthLimit) :
    ofContent? t.toItem.encode = if t.toItem.levels ≤ 128 then some t else none := by
  rw [ofContent?, Cbor.decode?_encode t.canonical_toItem hlength]
  split
  · rename_i hlevels
    -- the nesting bounds the depth of the tree and the complexity of its formulas
    have hnesting : t.toItem.nesting ≤ Cbor.nestingLimit := by
      rw [Item.levels] at hlevels
      rw [Cbor.nestingLimit]
      omega
    have hread : ofItem? Cbor.nestingLimit t.toItem = some t := by
      refine ofItem?_toItem (Nat.lt_of_lt_of_le t.depth_lt_nesting hnesting) ?_
      intro u hu p hp
      exact Nat.lt_of_lt_of_le (complexity_lt_nesting hu hp) hnesting
    exact hread
  · rfl

/-- What decoding makes of an encoded tree that passes the check. -/
theorem decode_encode_eq {t : ProofTree} (hcheck : t.check = .ok ())
    (hlength : t.encode.length < Cbor.lengthLimit) :
    decode t.encode = if t.toItem.levels ≤ 128 then .ok t else .error (.decode .content) := by
  have henvelope : Envelope.ofBytes? t.encode =
      some ⟨storageMagic, .exactly storageVersion, t.toItem.encode⟩ :=
    Envelope.ofBytes?_envelope parse?_exactly_storageVersion hlength
  have hadmits : (Requirement.exactly storageVersion).admits storageVersion = true := by decide
  -- the content is shorter than the envelope, so it can be counted as well
  have hcontent := ofContent?_encode (Nat.lt_of_le_of_lt length_le_length_envelope hlength)
  rw [decode, henvelope]
  simp only [ne_eq, not_true_eq_false, if_false, hadmits, Bool.not_true, Bool.false_eq_true,
    hcontent]
  by_cases hlevels : t.toItem.levels ≤ 128
  · simp only [if_pos hlevels, hcheck]
  · simp only [if_neg hlevels]

/-- **A binary file gives its tree back or nothing.**  A tree that passes the check, of
    a size that can be addressed, is read back if its document has at most 128 levels.
    Otherwise reading fails on the content: no other tree is read, and the envelope
    is always accepted. -/
theorem decode_encode {t : ProofTree} (hcheck : t.check = .ok ())
    (hlength : t.encode.length < Cbor.lengthLimit) :
    (t.toItem.levels ≤ 128 → decode t.encode = .ok t) ∧
      (128 < t.toItem.levels → decode t.encode = .error (.decode .content)) ∧
      (∀ u, decode t.encode = .ok u → u = t) ∧
      decode t.encode ≠ .error (.decode .envelope) ∧
      decode t.encode ≠ .error (.decode .magic) ∧
      ∀ required found, decode t.encode ≠ .error (.incompatible required found) := by
  rw [decode_encode_eq hcheck hlength]
  by_cases hlevels : t.toItem.levels ≤ 128
  · rw [if_pos hlevels]
    simp [hlevels]
  · rw [if_neg hlevels]
    simp [hlevels]

/-- The derivation of `A & B; A`. -/
def projection : ProofTree :=
  .node ⟨[.binary .conjunction (.atom ⟨"A", []⟩) (.atom ⟨"B", []⟩)], [.atom ⟨"A", []⟩]⟩
    [.premises [.node ⟨[.atom ⟨"A", []⟩, .atom ⟨"B", []⟩], [.atom ⟨"A", []⟩]⟩ [.initial] true]]
    true

theorem length_encode_projection : projection.encode.length < Cbor.lengthLimit := by
  decide +kernel

theorem decode_encode_projection :
    projection.check = .ok () ∧ projection.encode.length < Cbor.lengthLimit ∧
      projection.toItem.levels ≤ 128 ∧ decode projection.encode = .ok projection := by
  have hlevels : projection.toItem.levels ≤ 128 := by decide
  have hread := (decode_encode rfl length_encode_projection).1 hlevels
  exact ⟨rfl, length_encode_projection, hlevels, hread⟩

end ProofTree

/-! ## What can be read -/

/-- Nothing fails if none of the checks does. -/
theorem firstFailure_eq_ok_iff {checks : List (Except Error Unit)} :
    firstFailure checks = .ok () ↔ ∀ c ∈ checks, c = .ok () := by
  induction checks with
  | nil => simp [firstFailure]
  | cons c checks ih =>
      rw [List.forall_mem_cons]
      cases c with
      | error e => simp [firstFailure]
      | ok u => simpa [firstFailure] using ih

/-- What the check of a node asks for, given those of its children. -/
theorem checkNode_eq_ok_iff {root : Sequent} {branches : List (Branch (Except Error Unit))}
    {grown : Bool} :
    checkNode root branches grown = .ok () ↔
      grown = !branches.isEmpty ∧
        isShape root (branches.map fun b => b.children.length) = true ∧
        ∀ b ∈ branches, ∀ c ∈ b.children, c = .ok () := by
  rw [← List.forall_mem_flatMap, ← firstFailure_eq_ok_iff, ← checkShape_eq_ok_iff]
  have hmarked : grown = !branches.isEmpty ↔ ¬ (grown == branches.isEmpty) = true := by
    cases grown <;> cases branches.isEmpty <;> decide
  unfold checkNode
  split
  · rename_i hmark
    constructor
    · intro h
      cases h
    · rintro ⟨hgrown, -⟩
      exact absurd hmark (hmarked.mp hgrown)
  · rename_i hmark
    split
    · rename_i e hshape
      simp [hshape]
    · rename_i hshape
      simp [hmarked.mpr hmark, hshape]

namespace ProofTree

/-- What the check asks for at a node: a mark that agrees with the branches, a shape
    that fits the sequent, and the same below. -/
theorem check_node_eq_ok_iff {root : Sequent} {branches : List (Branch ProofTree)} {grown : Bool} :
    (node root branches grown).check = .ok () ↔
      grown = !branches.isEmpty ∧
        isShape root (branches.map fun b => b.children.length) = true ∧
        ∀ b ∈ branches, ∀ c ∈ b.children, c.check = .ok () := by
  have hnode : (node root branches grown).check =
      checkNode root (branches.map (Branch.map check)) grown := fold_node _ root branches grown
  rw [hnode, checkNode_eq_ok_iff, List.isEmpty_map, List.map_map, List.forall_mem_map]
  simp only [Function.comp_def, Branch.children_map, List.length_map, List.forall_mem_map]

/-- The check passes if every node is marked and shaped as it should be. -/
theorem check_eq_ok_iff {t : ProofTree} :
    t.check = .ok () ↔ ∀ u, t.HasNode u →
      u.isGrown = !u.branches.isEmpty ∧
        isShape u.root (u.branches.map fun b => b.children.length) = true := by
  induction t using ProofTree.induction with
  | node root branches grown ih =>
      rw [check_node_eq_ok_iff]
      constructor
      · rintro ⟨hgrown, hshape, hbelow⟩ u hu
        cases hu with
        | root => exact ⟨hgrown, hshape⟩
        | child hb hc hu => exact (ih _ hb _ hc).mp (hbelow _ hb _ hc) u hu
      · intro h
        obtain ⟨hgrown, hshape⟩ := h _ (.root _)
        refine ⟨hgrown, hshape, ?_⟩
        intro b hb c hc
        exact (ih b hb c hc).mpr fun u hu => h u (.child hb hc hu)

/-- Only trees that pass the check are decoded. -/
theorem check_of_decode {bs : List UInt8} {t : ProofTree} (h : decode bs = .ok t) :
    t.check = .ok () := by
  unfold decode at h
  split at h
  · cases h
  · split at h
    · cases h
    · split at h
      · cases h
      · split at h
        · cases h
        · split at h
          · cases h
          · rename_i hcheck
            cases h
            exact hcheck

/-- Numbers of premises settle the shape unless a branch lacks premises. -/
theorem conforms_iff_of_isShape {t : ProofTree} (hgrown : t.isGrown = !t.branches.isEmpty)
    (hshape : isShape t.root (t.branches.map fun b => b.children.length) = true) :
    t.Conforms ↔ .premises [] ∉ t.branches := by
  rw [← isShaped_iff_conforms]
  constructor
  · intro h hb
    cases h.childless _ hb rfl
  · intro h
    refine ⟨hshape, ?_, hgrown⟩
    intro b hb hnil
    cases b with
    | initial => rfl
    | premises ts =>
        rw [show ts = [] from hnil] at hb
        exact absurd hb h

/-- **A tree read from any bytes is shaped.**  Its nodes are marked as grown if they
    have branches, an atomic sequent has no branch or one without premises, and
    each branch of any other sequent has one or two premises.  All nodes conform
    to decomposition if no branch lacks premises; a closed tree then splits into
    a derivation, among others, whose leaves are atomic with an atom on both
    sides. -/
theorem conforms_iff_of_decode {bs : List UInt8} {t : ProofTree} (h : decode bs = .ok t) :
    (∀ u, t.HasNode u →
      (u.isGrown = true ↔ u.branches ≠ []) ∧
      (u.root.isAtomic = true →
        u.branches = [] ∨ u.branches = [.initial] ∨ u.branches = [.premises []]) ∧
      (u.root.isAtomic = false →
        ∀ b ∈ u.branches, ∃ ts, b = .premises ts ∧ (ts.length = 1 ∨ ts.length = 2))) ∧
    ((∀ u, t.HasNode u → u.Conforms) ↔ ∀ u, t.HasNode u → .premises [] ∉ u.branches) ∧
    ((∀ u, t.HasNode u → .premises [] ∉ u.branches) → t.isClosed = true →
      ∃ d ∈ t.split, ∀ l, d.HasNode l → l.IsLeaf →
        l.root.isAtomic = true ∧ l.root.isIdentity = true) := by
  have hnode := check_eq_ok_iff.mp (check_of_decode h)
  have hconforms : (∀ u, t.HasNode u → u.Conforms) ↔
      ∀ u, t.HasNode u → .premises [] ∉ u.branches := by
    refine forall₂_congr fun u hu => ?_
    exact conforms_iff_of_isShape (hnode u hu).1 (hnode u hu).2
  -- what the check has found holds at every node
  refine ⟨?_, hconforms, ?_⟩
  · intro u hu
    obtain ⟨hgrown, hshape⟩ := hnode u hu
    refine ⟨isGrown_eq_iff.mp hgrown, ?_, ?_⟩
    · intro hatomic
      exact (isShape_iff_of_atomic hatomic).mp hshape
    · intro hcompound
      exact (isShape_iff_of_compound hcompound).mp hshape
  · intro hpremises hclosed
    exact exists_derivation_of_isClosed t (hconforms.mpr hpremises) hclosed

theorem conforms_projection :
    decode projection.encode = .ok projection ∧ (∀ u, projection.HasNode u → u.Conforms) ∧
      ∃ d ∈ projection.split, ∀ l, d.HasNode l → l.IsLeaf →
        l.root.isAtomic = true ∧ l.root.isIdentity = true := by
  have hdecode : decode projection.encode = .ok projection :=
    decode_encode_eq rfl length_encode_projection
  have hpremises : ∀ u, projection.HasNode u → .premises [] ∉ u.branches := by
    intro u hu
    cases hu with
    | root => simp [projection, branches]
    | child hb hc hu =>
        rw [List.mem_singleton.mp hb] at hc
        rw [List.mem_singleton.mp hc] at hu
        cases hu with
        | root => simp [branches]
        | child hb hc _ =>
            rw [List.mem_singleton.mp hb] at hc
            cases hc
  obtain ⟨-, hconforms, hclosed⟩ := conforms_iff_of_decode hdecode
  exact ⟨hdecode, hconforms.mpr hpremises, hclosed hpremises rfl⟩

/-- `A; B` with a branch that lacks premises. -/
def unsupported : ProofTree :=
  .node ⟨[.atom ⟨"A", []⟩], [.atom ⟨"B", []⟩]⟩ [.premises []] true

/-- A tree that does not conform is read and counts as closed, though the one
    derivation it splits into ends on a sequent without a common atom. -/
theorem isClosed_unsupported :
    decode unsupported.encode = .ok unsupported ∧ unsupported.root.isAtomic = true ∧
      ¬ unsupported.Conforms ∧ unsupported.isClosed = true ∧
      ¬ ∃ d ∈ unsupported.split, ∀ l, d.HasNode l → l.IsLeaf →
        l.root.isAtomic = true ∧ l.root.isIdentity = true := by
  have hlength : unsupported.encode.length < Cbor.lengthLimit := by decide +kernel
  refine ⟨decode_encode_eq rfl hlength, rfl, ?_, rfl, ?_⟩
  · intro h
    exact h.premises_ne_nil (List.mem_singleton_self _) rfl
  · -- the tree splits into itself, and its root is a leaf
    rintro ⟨d, hd, h⟩
    obtain rfl : d = unsupported := List.mem_singleton.mp hd
    have hleaf : unsupported.IsLeaf := by
      intro b hb
      rw [List.mem_singleton.mp hb]
      rfl
    exact absurd (h _ (.root _) hleaf).2 (by decide)

end ProofTree

end SequentCalculus
