import Mathlib.Data.List.Destutter
import SequentCalculus.Sequent.Order
import SequentCalculus.Text.Utf8

/-! # The orders on formulas and sequents are total, and sorting is canonical

    What it means that one formula comes before another is said by rules (`Formula.Less`):
    its outermost form is listed earlier, or the forms agree and the first part that
    differs comes before.  Names come in the order of their bytes, lists in lexicographic
    order.

    A comparison has three outcomes, and each of them is to report one of three facts
    (`Reports`).  Comparisons that are made one after the other report what the order of
    pairs says (`Reports.andThen`), so that the recursion over formulas has one case for each
    form.  Whatever a comparison reports of a strict total order, sorting by it is
    canonical (`Decides.sortsCanonically`). -/

namespace SequentCalculus

/-! ## What a comparison reports -/

/-- The outcome says which of three facts holds. -/
structure Reports (o : Ordering) (lt eq gt : Prop) : Prop where
  lt_iff : o = .lt ↔ lt
  eq_iff : o = .eq ↔ eq
  gt_iff : o = .gt ↔ gt

namespace Reports

variable {o o' : Ordering} {lt lt' eq eq' gt gt' : Prop}

theorem congr (h : Reports o lt eq gt) (hlt : lt ↔ lt') (heq : eq ↔ eq') (hgt : gt ↔ gt') :
    Reports o lt' eq' gt' :=
  ⟨h.lt_iff.trans hlt, h.eq_iff.trans heq, h.gt_iff.trans hgt⟩

/-- The second comparison counts where the first one finds no difference. -/
theorem andThen (h : Reports o lt eq gt) (h' : Reports o' lt' eq' gt') :
    Reports (o.then o') (lt ∨ eq ∧ lt') (eq ∧ eq') (gt ∨ eq ∧ gt') where
  lt_iff := by rw [Ordering.then_eq_lt, h.lt_iff, h.eq_iff, h'.lt_iff]
  eq_iff := by rw [Ordering.then_eq_eq, h.eq_iff, h'.eq_iff]
  gt_iff := by rw [Ordering.then_eq_gt, h.gt_iff, h.eq_iff, h'.gt_iff]

/-- A lawful comparison reports the order that its first outcome stands for. -/
theorem of_lt_iff {α : Type} {cmp : α → α → Ordering} [Std.OrientedCmp cmp]
    [Std.LawfulEqCmp cmp] {less : α → α → Prop} (h : ∀ a b, cmp a b = .lt ↔ less a b) (a b : α) :
    Reports (cmp a b) (less a b) (a = b) (less b a) where
  lt_iff := h a b
  eq_iff := Std.LawfulEqCmp.compare_eq_iff_eq
  gt_iff := Std.OrientedCmp.gt_iff_lt.trans (h b a)

/-- Lists are compared at the first place at which they differ, and a list that ends
    there comes first. -/
theorem compareLex {α : Type} {cmp : α → α → Ordering} {less : α → α → Prop}
    (h : ∀ a b, Reports (cmp a b) (less a b) (a = b) (less b a)) (as : List α) :
    ∀ bs, Reports (List.compareLex cmp as bs) (List.Lex less as bs) (as = bs)
      (List.Lex less bs as) := by
  induction as with
  | nil =>
      intro bs
      cases bs with
      | nil =>
          refine ⟨iff_of_false ?_ List.not_lex_nil, iff_of_true rfl rfl,
            iff_of_false ?_ List.not_lex_nil⟩
          · exact Ordering.noConfusion
          · exact Ordering.noConfusion
      | cons b bs =>
          refine ⟨iff_of_true rfl .nil, iff_of_false ?_ (List.cons_ne_nil b bs).symm,
            iff_of_false ?_ List.not_lex_nil⟩
          · exact Ordering.noConfusion
          · exact Ordering.noConfusion
  | cons a as ih =>
      intro bs
      cases bs with
      | nil =>
          refine ⟨iff_of_false ?_ List.not_lex_nil, iff_of_false ?_ (List.cons_ne_nil a as),
            iff_of_true rfl .nil⟩
          · exact Ordering.noConfusion
          · exact Ordering.noConfusion
      | cons b bs =>
          rw [List.compareLex_cons_cons]
          refine ((h a b).andThen (ih bs)).congr ?_ ?_ ?_
          · exact List.cons_lex_cons_iff.symm
          · exact List.cons_eq_cons.symm
          · rw [List.cons_lex_cons_iff, eq_comm]

end Reports

/-! ## Names are compared by their bytes -/

/-- The bytes of the first name come first, byte by byte. -/
def NameLess (s t : String) : Prop := List.Lex (· < ·) (utf8Bytes s) (utf8Bytes t)

/-- The bytes of a text are those of its characters in a row. -/
theorem utf8Bytes_eq_flatMap (s : String) :
    utf8Bytes s = s.toList.flatMap String.utf8EncodeChar := by
  rw [utf8Bytes, String.toUTF8_eq_toByteArray, ← String.utf8Encode_toList]
  exact List.toList_data_toByteArray

/-- One to four bytes by the number of the character, six bits in each but the first. -/
theorem utf8EncodeChar_eq (c : Char) : String.utf8EncodeChar c =
    if c.toNat ≤ 0x7f then [.ofNat c.toNat]
    else if c.toNat ≤ 0x7ff then
      [.ofNat (c.toNat / 64 % 32 + 0xc0), .ofNat (c.toNat % 64 + 0x80)]
    else if c.toNat ≤ 0xffff then
      [.ofNat (c.toNat / 4096 % 16 + 0xe0), .ofNat (c.toNat / 64 % 64 + 0x80),
        .ofNat (c.toNat % 64 + 0x80)]
    else
      [.ofNat (c.toNat / 262144 % 8 + 0xf0), .ofNat (c.toNat / 4096 % 64 + 0x80),
        .ofNat (c.toNat / 64 % 64 + 0x80), .ofNat (c.toNat % 64 + 0x80)] := rfl

/-- Numbers are ordered like their digits. -/
theorem digits_lt {v w : Nat} (h : v < w) :
    v / 262144 < w / 262144 ∨ v / 262144 = w / 262144 ∧
      (v / 4096 % 64 < w / 4096 % 64 ∨ v / 4096 % 64 = w / 4096 % 64 ∧
        (v / 64 % 64 < w / 64 % 64 ∨ v / 64 % 64 = w / 64 % 64 ∧ v % 64 < w % 64)) := by
  have hsecond : ∀ n, n / 4096 = n / 64 / 64 := by
    intro n
    rw [Nat.div_div_eq_div_mul]
  have hthird : ∀ n, n / 262144 = n / 64 / 64 / 64 := by
    intro n
    rw [Nat.div_div_eq_div_mul, Nat.div_div_eq_div_mul]
  rw [hsecond v, hsecond w, hthird v, hthird w]
  omega

/-- Bytes compare as the numbers that they stand for. -/
theorem compare_ofNat {a b : Nat} (ha : a < 256) (hb : b < 256) :
    compare (UInt8.ofNat a) (UInt8.ofNat b) = compare a b := by
  have htoNat : ∀ {n : Nat}, n < 256 → (UInt8.ofNat n).toNat = n := UInt8.toNat_ofNat_of_lt'
  rcases Nat.lt_trichotomy a b with h | rfl | h
  · rw [Nat.compare_eq_lt.mpr h, Std.compare_eq_lt, UInt8.lt_iff_toNat_lt, htoNat ha, htoNat hb]
    exact h
  · rw [Nat.compare_eq_eq.mpr rfl]
    exact Std.ReflCmp.compare_self
  · rw [Nat.compare_eq_gt.mpr h, Std.compare_eq_gt, UInt8.lt_iff_toNat_lt, htoNat ha, htoNat hb]
    exact h

/-- The bytes of an earlier character decide, whatever follows. -/
theorem compareLex_encode_of_lt {c d : Char} (h : c < d) (bs bs' : List UInt8) :
    List.compareLex compare (String.utf8EncodeChar c ++ bs) (String.utf8EncodeChar d ++ bs') =
      .lt := by
  have hlt : c.toNat < d.toNat := h
  have hvalid : d.toNat < 0x110000 := by
    rcases d.valid with hlow | hhigh
    · exact Nat.lt_trans hlow (by decide)
    · exact hhigh.2
  have hlead : ∀ v, v < 0x110000 → v / 262144 % 8 = v / 262144 := by omega
  have hdigits := digits_lt hlt
  rw [utf8EncodeChar_eq, utf8EncodeChar_eq, hlead _ hvalid, hlead _ (Nat.lt_trans hlt hvalid)]
  -- the first bytes differ if the numbers of bytes do, and some digit does otherwise
  split_ifs
  all_goals
    simp (disch := omega) only [List.cons_append, List.compareLex_cons_cons, compare_ofNat,
      Ordering.then_eq_lt, Nat.compare_eq_lt, Nat.compare_eq_eq]
    omega

/-- A common beginning does not matter. -/
theorem compareLex_append_same (bs cs ds : List UInt8) :
    List.compareLex compare (bs ++ cs) (bs ++ ds) = List.compareLex compare cs ds := by
  induction bs with
  | nil => rfl
  | cons b bs ih =>
      rw [List.cons_append, List.cons_append, List.compareLex_cons_cons, ih,
        Std.LawfulEqOrd.compare_eq_iff_eq.mpr rfl]
      rfl

theorem reports_char (c d : Char) : Reports (compare c d) (c < d) (c = d) (d < c) := by
  have hlt : ∀ c d : Char, compare c d = .lt ↔ c < d := fun _ _ => compareOfLessAndEq_eq_lt
  exact .of_lt_iff hlt c d

/-- The bytes of characters compare as the characters do, and then the rest decides:
    no character's bytes begin another's. -/
theorem compareLex_encode (c d : Char) (bs bs' : List UInt8) :
    List.compareLex compare (String.utf8EncodeChar c ++ bs) (String.utf8EncodeChar d ++ bs') =
      (compare c d).then (List.compareLex compare bs bs') := by
  cases hcd : compare c d with
  | lt => exact compareLex_encode_of_lt ((reports_char c d).lt_iff.mp hcd) bs bs'
  | eq =>
      rw [(reports_char c d).eq_iff.mp hcd]
      exact compareLex_append_same _ bs bs'
  | gt =>
      have hlt := compareLex_encode_of_lt ((reports_char c d).gt_iff.mp hcd) bs' bs
      exact Std.OrientedCmp.gt_iff_lt.mpr hlt

/-- Bytes are compared like the characters that they encode. -/
theorem compareLex_flatMap_encode (cs : List Char) : ∀ ds : List Char,
    List.compareLex compare (cs.flatMap String.utf8EncodeChar)
      (ds.flatMap String.utf8EncodeChar) = List.compareLex compare cs ds := by
  -- no character is encoded by nothing
  have hcons : ∀ (c : Char) (cs : List Char), ∃ b bs,
      (c :: cs).flatMap String.utf8EncodeChar = b :: bs := by
    intro c cs
    obtain ⟨b, bs, hc⟩ := List.exists_cons_of_ne_nil (String.utf8EncodeChar_ne_nil (c := c))
    exact ⟨b, bs ++ cs.flatMap String.utf8EncodeChar, by rw [List.flatMap_cons, hc]; rfl⟩
  induction cs with
  | nil =>
      intro ds
      cases ds with
      | nil => rfl
      | cons d ds =>
          obtain ⟨b, bs, hd⟩ := hcons d ds
          rw [hd]
          rfl
  | cons c cs ih =>
      intro ds
      cases ds with
      | nil =>
          obtain ⟨b, bs, hc⟩ := hcons c cs
          rw [hc]
          rfl
      | cons d ds =>
          rw [List.flatMap_cons, List.flatMap_cons, compareLex_encode, ih,
            List.compareLex_cons_cons]

/-- Names are ordered as strings are. -/
theorem nameLess_iff {s t : String} : NameLess s t ↔ s < t := by
  have hbyte : ∀ a b : UInt8, compare a b = .lt ↔ a < b := fun _ _ => Std.compare_eq_lt
  have hbytes := (Reports.compareLex (Reports.of_lt_iff hbyte) (utf8Bytes s) (utf8Bytes t)).lt_iff
  have hchars := (Reports.compareLex reports_char s.toList t.toList).lt_iff
  rw [utf8Bytes_eq_flatMap, utf8Bytes_eq_flatMap, compareLex_flatMap_encode, hchars] at hbytes
  rw [NameLess, utf8Bytes_eq_flatMap, utf8Bytes_eq_flatMap]
  exact hbytes.symm

/-! ## Strict total orders -/

/-- The comparison has the outcomes of a strict total order. -/
structure Decides {α : Type} (cmp : α → α → Ordering) (less : α → α → Prop) : Prop where
  reports : ∀ a b, Reports (cmp a b) (less a b) (a = b) (less b a)
  trans : ∀ {a b c}, less a b → less b c → less a c
  asymm : ∀ {a b}, less a b → ¬ less b a
  total : ∀ a b, less a b ∨ a = b ∨ less b a

namespace Decides

variable {α β γ : Type}

/-- An outcome is one of three, and only one. -/
theorem of_reports {cmp : α → α → Ordering} {less : α → α → Prop}
    (hreports : ∀ a b, Reports (cmp a b) (less a b) (a = b) (less b a))
    (htrans : ∀ {a b c}, less a b → less b c → less a c) : Decides cmp less where
  reports := hreports
  trans := htrans
  asymm := by
    intro a b hab hba
    have hlt := (hreports a b).lt_iff.mpr hab
    have hgt := (hreports a b).gt_iff.mpr hba
    rw [hlt] at hgt
    cases hgt
  total := by
    intro a b
    cases hab : cmp a b with
    | lt => exact Or.inl ((hreports a b).lt_iff.mp hab)
    | eq => exact Or.inr (Or.inl ((hreports a b).eq_iff.mp hab))
    | gt => exact Or.inr (Or.inr ((hreports a b).gt_iff.mp hab))

theorem names : Decides (compare : String → String → Ordering) NameLess := by
  have hlt : ∀ s t : String, compare s t = .lt ↔ NameLess s t := fun _ _ =>
    compareOfLessAndEq_eq_lt.trans nameLess_iff.symm
  refine of_reports (Reports.of_lt_iff hlt) ?_
  intro s t u hst htu
  exact nameLess_iff.mpr (String.lt_trans (nameLess_iff.mp hst) (nameLess_iff.mp htu))

theorem lists {cmp : α → α → Ordering} {less : α → α → Prop} (h : Decides cmp less) :
    Decides (List.compareLex cmp) (List.Lex less) :=
  of_reports (Reports.compareLex h.reports) (List.lex_trans h.trans)

/-- Comparing one part after the other, if the two parts are everything. -/
theorem pairs {cmp : β → β → Ordering} {less : β → β → Prop} {cmp' : γ → γ → Ordering}
    {less' : γ → γ → Prop} (h : Decides cmp less) (h' : Decides cmp' less') {f : α → β} {g : α → γ}
    (hinj : ∀ a b, f a = f b ∧ g a = g b ↔ a = b) :
    Decides (fun a b => (cmp (f a) (f b)).then (cmp' (g a) (g b)))
      (fun a b => less (f a) (f b) ∨ f a = f b ∧ less' (g a) (g b)) := by
  refine of_reports ?_ ?_
  · intro a b
    refine ((h.reports (f a) (f b)).andThen (h'.reports (g a) (g b))).congr Iff.rfl (hinj a b) ?_
    rw [eq_comm]
  · rintro a b c (hab | ⟨hab, hab'⟩) (hbc | ⟨hbc, hbc'⟩)
    · exact Or.inl (h.trans hab hbc)
    · exact Or.inl (hbc ▸ hab)
    · exact Or.inl (hab ▸ hbc)
    · exact Or.inr ⟨hab.trans hbc, h'.trans hab' hbc'⟩

end Decides

/-! ## Atoms -/

/-- The predicate comes first, or it is the same and the terms come first. -/
def Atom.Less (a b : Atom) : Prop :=
  NameLess a.predicate b.predicate ∨
    a.predicate = b.predicate ∧ List.Lex NameLess a.terms b.terms

/-- Comparing atoms decides their order. -/
theorem Atom.decides_compare : Decides Atom.compare Atom.Less := by
  refine Decides.pairs Decides.names Decides.names.lists ?_
  rintro ⟨P, ts⟩ ⟨Q, us⟩
  rw [mk.injEq]

/-! ## Formulas -/

namespace Formula

/-- The outermost forms in their order: atoms, and then the connectives as they are listed. -/
def forms : List (Option Connective) := none :: Connective.all.map some

/-- The outermost form of the first formula is listed before that of the second. -/
def FormBefore (p q : Formula) : Prop := [p.connective?, q.connective?].Sublist forms

/-- The first formula comes before the second: its form does, or the forms agree and the
    first of their parts that differ does. -/
inductive Less : Formula → Formula → Prop
  | form {p q : Formula} (h : FormBefore p q) : Less p q
  | atom {a b : Atom} (h : a.Less b) : Less (atom a) (atom b)
  | negation {p q : Formula} (h : Less p q) : Less (negation p) (negation q)
  | left {op : Operator} {p p' q q' : Formula} (h : Less p q) :
      Less (binary op p p') (binary op q q')
  | right {op : Operator} {p p' q' : Formula} (h : Less p' q') :
      Less (binary op p p') (binary op p q')
  | bound {k : Quantifier} {x y : String} {p q : Formula} (h : NameLess x y) :
      Less (quantified k x p) (quantified k y q)
  | body {k : Quantifier} {x : String} {p q : Formula} (h : Less p q) :
      Less (quantified k x p) (quantified k x q)

/-- The rank of a formula is the place of its form in the list. -/
theorem rank_cases (p q : Formula) : (FormBefore p q ↔ p.rank < q.rank) ∧
    (p.connective? = q.connective? ↔ p.rank = q.rank) := by
  rw [FormBefore, rank, rank]
  generalize p.connective? = c
  generalize q.connective? = d
  rcases c with _ | _ | (_ | _ | _) | (_ | _) <;> rcases d with _ | _ | (_ | _ | _) | (_ | _) <;>
    decide

/-- The form of a formula has a rank. -/
theorem formBefore_iff {p q : Formula} : FormBefore p q ↔ p.rank < q.rank :=
  (rank_cases p q).1

/-- Formulas of one rank have the same connective. -/
theorem rank_eq_iff {p q : Formula} : p.rank = q.rank ↔ p.connective? = q.connective? :=
  (rank_cases p q).2.symm

/-- Two formulas have different forms, or they have the same one and their parts can be
    treated side by side. -/
theorem pair_induction {motive : Formula → Formula → Prop}
    (apart : ∀ p q, p.connective? ≠ q.connective? → motive p q)
    (atom : ∀ a b, motive (atom a) (atom b))
    (negation : ∀ p q, motive p q → motive (negation p) (negation q))
    (binary : ∀ op p p' q q', motive p q → motive p' q' →
      motive (binary op p p') (binary op q q'))
    (quantified : ∀ k x y p q, motive p q → motive (quantified k x p) (quantified k y q))
    (p : Formula) : ∀ q, motive p q := by
  induction p with
  | atom a =>
      intro q
      by_cases hform : (Formula.atom a).connective? = q.connective?
      · cases q with
        | atom b => exact atom a b
        | _ => cases hform
      · exact apart _ _ hform
  | negation p ih =>
      intro q
      by_cases hform : p.negation.connective? = q.connective?
      · cases q with
        | negation q => exact negation p q (ih q)
        | _ => cases hform
      · exact apart _ _ hform
  | binary op p p' ih ih' =>
      intro q
      by_cases hform : (Formula.binary op p p').connective? = q.connective?
      · cases q with
        | binary op' q q' =>
            cases hform
            exact binary op p p' q q' (ih q) (ih' q')
        | _ => cases hform
      · exact apart _ _ hform
  | quantified k x p ih =>
      intro q
      by_cases hform : (Formula.quantified k x p).connective? = q.connective?
      · cases q with
        | quantified k' y q =>
            cases hform
            exact quantified k x y p q (ih q)
        | _ => cases hform
      · exact apart _ _ hform

/-! ### The rules, read backwards -/

/-- Formulas with different connectives are ordered by rank. -/
theorem less_iff_of_apart {p q : Formula} (h : p.connective? ≠ q.connective?) :
    Less p q ↔ p.rank < q.rank := by
  rw [← formBefore_iff]
  refine ⟨?_, .form⟩
  intro hless
  cases hless with
  | form hform => exact hform
  | _ => exact absurd rfl h

theorem not_formBefore {p q : Formula} (h : p.connective? = q.connective?) : ¬ FormBefore p q := by
  rw [formBefore_iff, rank_eq_iff.mpr h]
  exact Nat.lt_irrefl _

theorem less_atom_iff {a b : Atom} : Less (atom a) (atom b) ↔ a.Less b := by
  refine ⟨?_, .atom⟩
  intro hless
  cases hless with
  | form hform => exact absurd hform (not_formBefore rfl)
  | atom h => exact h

theorem less_negation_iff {p q : Formula} : Less p.negation q.negation ↔ Less p q := by
  refine ⟨?_, .negation⟩
  intro hless
  cases hless with
  | form hform => exact absurd hform (not_formBefore rfl)
  | negation h => exact h

/-- Formulas with the same operator are ordered by the first operand and then by the
    second. -/
theorem less_binary_iff {op : Operator} {p p' q q' : Formula} :
    Less (binary op p p') (binary op q q') ↔ Less p q ∨ p = q ∧ Less p' q' := by
  refine ⟨?_, ?_⟩
  · intro hless
    cases hless with
    | form hform => exact absurd hform (not_formBefore rfl)
    | left h => exact Or.inl h
    | right h => exact Or.inr ⟨rfl, h⟩
  · rintro (h | ⟨rfl, h⟩)
    · exact .left h
    · exact .right h

/-- Formulas with the same quantifier are ordered by the bound name and then by the
    scope. -/
theorem less_quantified_iff {k : Quantifier} {x y : String} {p q : Formula} :
    Less (quantified k x p) (quantified k y q) ↔ NameLess x y ∨ x = y ∧ Less p q := by
  refine ⟨?_, ?_⟩
  · intro hless
    cases hless with
    | form hform => exact absurd hform (not_formBefore rfl)
    | bound h => exact Or.inl h
    | body h => exact Or.inr ⟨rfl, h⟩
  · rintro (h | ⟨rfl, h⟩)
    · exact .bound h
    · exact .body h

/-! ### The comparison follows the rules -/

/-- Formulas with different connectives are compared by rank. -/
theorem compare_of_apart {p q : Formula} (h : p.connective? ≠ q.connective?) :
    p.compare q = Ord.compare p.rank q.rank := by
  have hthen : ∀ o, (Ord.compare p.rank q.rank).then o = Ord.compare p.rank q.rank := by
    intro o
    cases hrank : Ord.compare p.rank q.rank with
    | eq => exact absurd (rank_eq_iff.mp (Nat.compare_eq_eq.mp hrank)) h
    | lt | gt => rfl
  cases p with
  | atom a =>
      cases q with
      | atom b => exact absurd rfl h
      | _ => rfl
  | negation p =>
      cases q with
      | negation q => exact absurd rfl h
      | _ => rfl
  | binary op p p' =>
      cases q with
      | binary op' q q' => exact hthen _
      | _ => rfl
  | quantified k x p =>
      cases q with
      | quantified k' y q => exact hthen _
      | _ => rfl

theorem compare_binary (op : Operator) (p p' q q' : Formula) :
    (binary op p p').compare (binary op q q') = (p.compare q).then (p'.compare q') := by
  have hrank : Ord.compare (binary op p p').rank (binary op q q').rank = .eq :=
    Nat.compare_eq_eq.mpr rfl
  rw [compare, hrank]
  rfl

theorem compare_quantified (k : Quantifier) (x y : String) (p q : Formula) :
    (quantified k x p).compare (quantified k y q) = (Ord.compare x y).then (p.compare q) := by
  have hrank : Ord.compare (quantified k x p).rank (quantified k y q).rank = .eq :=
    Nat.compare_eq_eq.mpr rfl
  rw [compare, hrank]
  rfl

/-- Comparing two formulas reports which of them is less. -/
theorem reports_compare (p q : Formula) :
    Reports (p.compare q) (Less p q) (p = q) (Less q p) := by
  induction p, q using pair_induction with
  | apart p q h =>
      -- different connectives decide, and make the formulas different
      have hlt : ∀ m n : Nat, Ord.compare m n = .lt ↔ m < n := fun _ _ => Nat.compare_eq_lt
      rw [compare_of_apart h]
      refine (Reports.of_lt_iff hlt p.rank q.rank).congr (less_iff_of_apart h).symm ?_
        (less_iff_of_apart h.symm).symm
      rw [rank_eq_iff]
      exact iff_of_false h fun heq => h (congrArg connective? heq)
  | atom a b =>
      rw [compare]
      refine (Atom.decides_compare.reports a b).congr less_atom_iff.symm ?_ less_atom_iff.symm
      rw [atom.injEq]
  | negation p q ih =>
      rw [compare]
      refine ih.congr less_negation_iff.symm ?_ less_negation_iff.symm
      rw [negation.injEq]
  | binary op p p' q q' ih ih' =>
      rw [compare_binary]
      refine (ih.andThen ih').congr less_binary_iff.symm ?_ ?_
      · rw [binary.injEq, eq_self, true_and]
      · rw [less_binary_iff, eq_comm]
  | quantified k x y p q ih =>
      rw [compare_quantified]
      refine ((Decides.names.reports x y).andThen ih).congr less_quantified_iff.symm ?_ ?_
      · rw [quantified.injEq, eq_self, true_and]
      · rw [less_quantified_iff, eq_comm]

/-- The order of formulas is transitive. -/
theorem Less.trans {p q : Formula} (h : Less p q) : ∀ {r}, Less q r → Less p r := by
  induction h with
  | @form p q h =>
      intro r h'
      refine .form ?_
      -- the form of the second formula is that of the third or comes before it
      by_cases hform : q.connective? = r.connective?
      · rw [FormBefore, ← hform]
        exact h
      · have hlt := (less_iff_of_apart hform).mp h'
        exact formBefore_iff.mpr (Nat.lt_trans (formBefore_iff.mp h) hlt)
  | atom h =>
      intro r h'
      cases h' with
      | form h' => exact .form h'
      | atom h' => exact .atom (Atom.decides_compare.trans h h')
  | negation h ih =>
      intro r h'
      cases h' with
      | form h' => exact .form h'
      | negation h' => exact .negation (ih h')
  | left h ih =>
      intro r h'
      cases h' with
      | form h' => exact .form h'
      | left h' => exact .left (ih h')
      | right h' => exact .left h
  | right h ih =>
      intro r h'
      cases h' with
      | form h' => exact .form h'
      | left h' => exact .left h'
      | right h' => exact .right (ih h')
  | bound h =>
      intro r h'
      cases h' with
      | form h' => exact .form h'
      | bound h' => exact .bound (Decides.names.trans h h')
      | body h' => exact .bound h
  | body h ih =>
      intro r h'
      cases h' with
      | form h' => exact .form h'
      | bound h' => exact .bound h'
      | body h' => exact .body (ih h')

/-- Comparing formulas decides their order. -/
theorem decides_compare : Decides Formula.compare Formula.Less :=
  .of_reports reports_compare fun h h' => h.trans h'

end Formula

/-! ## Sequents -/

/-- The antecedent comes first, or it is the same and the consequent comes first. -/
def Sequent.Less (s t : Sequent) : Prop :=
  List.Lex Formula.Less s.antecedent t.antecedent ∨
    s.antecedent = t.antecedent ∧ List.Lex Formula.Less s.consequent t.consequent

/-- Comparing sequents decides their order. -/
theorem Sequent.decides_compare : Decides Sequent.compare Sequent.Less := by
  refine Decides.pairs Formula.decides_compare.lists Formula.decides_compare.lists ?_
  rintro ⟨ps, qs⟩ ⟨ps', qs'⟩
  rw [mk.injEq]

/-! ## Sorting -/

/-- Sorting depends only on which members there are and how often, and brings equal
    members together. -/
structure SortsCanonically {α : Type} [DecidableEq α] (less : α → α → Prop)
    (sort : List α → List α) : Prop where
  perm : ∀ as, (sort as).Perm as
  sorted : ∀ as, (sort as).Pairwise fun a b => ¬ less b a
  canonical : ∀ as bs, sort as = sort bs ↔ as.Perm bs
  distinct : ∀ as a, (dropRepeats (sort as)).count a = if a ∈ as then 1 else 0

theorem dropRepeats_cons {α : Type} [DecidableEq α] (a : α) (as : List α) :
    dropRepeats (a :: as) = as.destutter' (· ≠ ·) a := by
  induction as generalizing a with
  | nil => rfl
  | cons b as ih =>
      rw [dropRepeats]
      by_cases hab : a = b
      · rw [if_pos hab, ih, List.destutter'_cons_neg as (not_not.mpr hab), hab]
      · rw [if_neg hab, ih, List.destutter'_cons_pos as hab]

/-- Dropping repeats removes what equals the element before it. -/
theorem dropRepeats_eq_destutter {α : Type} [DecidableEq α] (as : List α) :
    dropRepeats as = as.destutter (· ≠ ·) := by
  cases as with
  | nil => rfl
  | cons a as => rw [dropRepeats_cons, List.destutter_cons']

namespace Decides

variable {α : Type} {cmp : α → α → Ordering} {less : α → α → Prop}

/-- Not to be greater is what the comparison reports as less or equal. -/
theorem isLE_iff (h : Decides cmp less) (a b : α) : (cmp a b).isLE = true ↔ ¬ less b a :=
  Ordering.isLE_iff_ne_gt.trans (not_congr (h.reports a b).gt_iff)

theorem not_less_trans (h : Decides cmp less) {a b c : α} (hab : ¬ less b a) (hbc : ¬ less c b) :
    ¬ less c a := by
  intro hca
  rcases h.total a b with hlt | rfl | hlt
  · exact hbc (h.trans hca hlt)
  · exact hbc hca
  · exact hab hlt

/-- Elements neither of which is less are equal. -/
theorem eq_of_not_less (h : Decides cmp less) {a b : α} (hab : ¬ less b a) (hba : ¬ less a b) :
    a = b :=
  ((h.total a b).resolve_left hba).resolve_right hab

/-- Sorting puts nothing before something less. -/
theorem sorted_mergeSort (h : Decides cmp less) (as : List α) :
    (as.mergeSort fun a b => (cmp a b).isLE).Pairwise fun a b => ¬ less b a := by
  have hle : (as.mergeSort fun a b => (cmp a b).isLE).Pairwise
      fun a b => (cmp a b).isLE = true := by
    refine List.pairwise_mergeSort ?_ ?_ as
    · intro a b c hab hbc
      rw [h.isLE_iff] at hab hbc ⊢
      exact h.not_less_trans hab hbc
    · intro a b
      rw [Bool.or_eq_true, h.isLE_iff, h.isLE_iff]
      exact not_and_or.mp fun hboth => h.asymm hboth.1 hboth.2
  exact hle.imp fun hab => (h.isLE_iff _ _).mp hab

/-- Sorting by the comparison of a strict total order is canonical. -/
theorem sortsCanonically [DecidableEq α] (h : Decides cmp less) :
    SortsCanonically less fun as => as.mergeSort fun a b => (cmp a b).isLE where
  perm := fun as => List.mergeSort_perm as _
  sorted := h.sorted_mergeSort
  canonical := by
    intro as bs
    refine ⟨?_, ?_⟩
    · intro heq
      exact (List.mergeSort_perm as _).symm.trans (heq ▸ List.mergeSort_perm bs _)
    · intro hperm
      refine List.Perm.eq_of_pairwise ?_ (h.sorted_mergeSort as) (h.sorted_mergeSort bs) ?_
      · intro a b _ _ hab hba
        exact h.eq_of_not_less hab hba
      · exact (List.mergeSort_perm as _).trans (hperm.trans (List.mergeSort_perm bs _).symm)
  distinct := by
    intro as a
    have hantisymm : Std.Antisymm fun a b : α => ¬ less b a := ⟨fun _ _ => h.eq_of_not_less⟩
    rw [dropRepeats_eq_destutter, (h.sorted_mergeSort as).destutter_eq_dedup, List.count_dedup]
    exact if_congr List.mem_mergeSort rfl rfl

end Decides

/-- **Comparison is total and sorting canonical.**  The comparisons of atoms, formulas
    and sequents are those of strict total orders, and sorting by them takes all orders
    of the same members to one list. -/
theorem compare_total_sort_canonical :
    (Decides Atom.compare Atom.Less ∧ Decides Formula.compare Formula.Less ∧
        Decides Sequent.compare Sequent.Less) ∧
      SortsCanonically Formula.Less Formula.sort ∧
      SortsCanonically Sequent.Less Sequent.sort :=
  ⟨⟨Atom.decides_compare, Formula.decides_compare, Sequent.decides_compare⟩,
    Formula.decides_compare.sortsCanonically, Sequent.decides_compare.sortsCanonically⟩

end SequentCalculus
