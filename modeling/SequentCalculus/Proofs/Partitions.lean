import Mathlib.Data.Nat.Init
import SequentCalculus.Proofs.Failure

/-! # Partitions are all distributions, each once

    To distribute the members of a sequent over two parts is to say of each place
    whether its member goes to the right.  The parts keep the members that fall to
    them on their sides and in their order (`Sequent.distributed`).

    Partition `k` is the distribution by the bits of `k`, and the bits of the numbers
    below `2 ^ n` are all the ways to choose among `n` places.  As long as `n` is at
    most 63, the words that count the partitions hold exactly these numbers, so the
    partitions that are handed out are all distributions, each of them once
    (`Partitions.enumerates_distributions`).  A rule that divides its context has as
    many alternatives. -/

namespace SequentCalculus

/-! ## Distributions -/

/-- The members of a list at the places in `p`, where the first place is number `i`. -/
def placed {α : Type} (p : Nat → Bool) (i : Nat) (as : List α) : List α :=
  ((as.zipIdx i).filter fun m => p m.2).map Prod.fst

section Placed

variable {α : Type} {p q : Nat → Bool}

theorem placed_cons (i : Nat) (a : α) (as : List α) :
    placed p i (a :: as) = if p i then a :: placed p (i + 1) as else placed p (i + 1) as := by
  rw [placed, List.zipIdx_cons, List.filter_cons]
  split
  · rfl
  · rfl

/-- Only the places of the members matter. -/
theorem placed_congr (as : List α) {i : Nat} (h : ∀ j < i + as.length, p j = q j) :
    placed p i as = placed q i as := by
  induction as generalizing i with
  | nil => rfl
  | cons a as ih =>
      rw [List.length_cons] at h
      have hi : p i = q i := h i (by omega)
      rw [placed_cons, placed_cons, hi, ih fun j hj => h j (by omega)]

/-- Dealing by the bits of a number takes the places of its bits apart. -/
theorem deal_shiftRight (k : Nat) (as : List α) (i : Nat) :
    deal (k >>> i) as = (placed (fun j => !k.testBit j) i as, placed k.testBit i as) := by
  induction as generalizing i with
  | nil => rfl
  | cons a as ih =>
      rw [deal, ← Nat.shiftRight_succ, ih, placed_cons, placed_cons]
      simp only [shiftRight_mod_two_eq_zero_iff]
      cases k.testBit i <;> rfl

end Placed

namespace Sequent

/-- The members at the places in `p`, on their sides and in their order.  Places are
    counted through the antecedent and then the consequent. -/
def select (s : Sequent) (p : Nat → Bool) : Sequent :=
  ⟨placed p 0 s.antecedent, placed p s.antecedent.length s.consequent⟩

/-- The members at the places in `right` go to the right part, and the others to the
    left one. -/
def distributed (s : Sequent) (right : Nat → Bool) : Sequent × Sequent :=
  (s.select fun i => !right i, s.select right)

theorem select_congr (s : Sequent) {p q : Nat → Bool} (h : ∀ i < s.length, p i = q i) :
    s.select p = s.select q := by
  rw [length] at h
  rw [select, select, placed_congr s.antecedent fun i hi => h i (by omega),
    placed_congr s.consequent h]

theorem distributed_congr (s : Sequent) {p q : Nat → Bool} (h : ∀ i < s.length, p i = q i) :
    s.distributed p = s.distributed q := by
  rw [distributed, distributed, s.select_congr h,
    s.select_congr fun i hi => congrArg (!·) (h i hi)]

/-- The partition with a number is the distribution by its bits. -/
theorem partition_eq_distributed (s : Sequent) (k : Nat) :
    s.partition k = s.distributed k.testBit := by
  have hant := deal_shiftRight k s.antecedent 0
  rw [Nat.shiftRight_zero] at hant
  rw [partition, hant, deal_shiftRight]
  rfl

/-- The numbers below a power of two have all combinations of bits, each once. -/
theorem existsUnique_testBit (n : Nat) (right : Nat → Bool) :
    ∃! k, k < 2 ^ n ∧ ∀ i < n, k.testBit i = right i := by
  refine ⟨Nat.ofBits fun i : Fin n => right i, ⟨Nat.ofBits_lt_two_pow _, ?_⟩, ?_⟩
  · intro i hi
    exact Nat.testBit_ofBits_lt _ i hi
  · rintro k ⟨hk, hbits⟩
    refine Nat.eq_of_testBit_eq ?_
    intro i
    by_cases hi : i < n
    · rw [hbits i hi, Nat.testBit_ofBits_lt _ i hi]
    · -- neither number reaches bit `i`
      have hpow : 2 ^ n ≤ 2 ^ i := Nat.pow_le_pow_right (by decide) (Nat.le_of_not_lt hi)
      rw [Nat.testBit_lt_two_pow (Nat.lt_of_lt_of_le hk hpow),
        Nat.testBit_lt_two_pow (Nat.lt_of_lt_of_le (Nat.ofBits_lt_two_pow _) hpow)]

/-- Counting from the other end exchanges the parts. -/
theorem distributed_complement (s : Sequent) {k : Nat} (h : k < 2 ^ s.length) :
    s.distributed (2 ^ s.length - 1 - k).testBit = (s.distributed k.testBit).swap := by
  have hbits : ∀ i < s.length, (2 ^ s.length - 1 - k).testBit i = !k.testBit i := by
    intro i hi
    rw [Nat.sub_sub, Nat.add_comm 1 k, Nat.testBit_two_pow_sub_succ h, decide_eq_true hi,
      Bool.true_and]
  rw [s.distributed_congr hbits]
  simp only [distributed, Bool.not_not]
  rfl

/-- The list has one entry for each distribution of the members, in the order of the
    numbers whose bits they are. -/
structure ListsDistributions {α : Type} (s : Sequent) (entry : Sequent × Sequent → α)
    (l : List α) : Prop where
  length : l.length = 2 ^ s.antecedent.length * 2 ^ s.consequent.length
  bits : ∀ k < l.length, l[k]? = some (entry (s.distributed k.testBit))
  once : ∀ right : Nat → Bool, ∃! k, k < l.length ∧ (∀ i < s.length, k.testBit i = right i) ∧
    l[k]? = some (entry (s.distributed right))

/-- The partitions with all numbers list the distributions. -/
theorem listsDistributions_map {α : Type} (s : Sequent) (entry : Sequent × Sequent → α) :
    s.ListsDistributions entry
      ((List.range (1 <<< s.length)).map fun k => entry (s.partition k)) := by
  have hlength : ((List.range (1 <<< s.length)).map fun k => entry (s.partition k)).length =
      2 ^ s.length := by
    rw [List.length_map, List.length_range, Nat.one_shiftLeft]
  have hbits : ∀ k < 2 ^ s.length,
      ((List.range (1 <<< s.length)).map fun k => entry (s.partition k))[k]? =
        some (entry (s.distributed k.testBit)) := by
    intro k hk
    rw [List.getElem?_map, List.getElem?_range (by rw [Nat.one_shiftLeft]; exact hk),
      Option.map_some, partition_eq_distributed]
  refine ⟨?_, ?_, ?_⟩
  · rw [hlength, Sequent.length, Nat.pow_add]
  · rw [hlength]
    exact hbits
  · intro right
    rw [hlength]
    obtain ⟨k, ⟨hk, hright⟩, hunique⟩ := existsUnique_testBit s.length right
    refine ⟨k, ⟨hk, hright, ?_⟩, ?_⟩
    · rw [hbits k hk, s.distributed_congr hright]
    · rintro k' ⟨hk', hright', -⟩
      exact hunique k' ⟨hk', hright'⟩

/-- With at most 63 members there are partitions, and they list the distributions. -/
theorem exists_partitions {s : Sequent} (h : s.length ≤ 63) :
    ∃ parts, s.partitions? = some parts ∧ s.ListsDistributions id parts := by
  refine ⟨_, ?_, s.listsDistributions_map id⟩
  rw [partitions?_eq, if_pos (show s.length ≤ maxPartitioned from h)]
  rfl

end Sequent

/-! ## Handing out the partitions -/

namespace Partitions

/-- The partitions are those of a sequent, from the first one on, and the words in
    which they are counted never wrap. -/
structure Enumerates (p : Partitions) (s : Sequent) : Prop where
  /-- The end and the bits of the members are reached by shifts within the word. -/
  shift : ∀ i ≤ s.length, (bitWord i).toNat = 2 ^ i
  /-- After `j` partitions the next one has number `j`. -/
  next : ∀ j ≤ 2 ^ s.length, (p.take j).2.next.toNat = j
  /-- The first `j` partitions are the distributions by the bits of their numbers. -/
  taken : ∀ j ≤ 2 ^ s.length,
    (p.take j).1 = (List.range j).map fun k => s.distributed k.testBit
  /-- The announced number of further partitions is exact. -/
  sizeHint : ∀ j ≤ 2 ^ s.length,
    (p.take j).2.sizeHint = (2 ^ s.length - j, some (2 ^ s.length - j))
  /-- None is left when there have been `2 ^ n`, and not before. -/
  finished : ∀ j ≤ 2 ^ s.length, ((p.take j).2.next? = none ↔ j = 2 ^ s.length)

theorem ofSequent?_of_le {s : Sequent} (h : s.length ≤ 63) :
    ofSequent? s = some ⟨s, 0, bitWord s.length⟩ :=
  if_neg (Nat.not_lt.mpr h)

/-- The enumeration that starts at zero and ends at the power of two hands out all
    partitions. -/
theorem enumerates_ofSequent {s : Sequent} (h : s.length ≤ 63) :
    Enumerates ⟨s, 0, bitWord s.length⟩ s := by
  have hshift : ∀ i ≤ s.length, (bitWord i).toNat = 2 ^ i := by
    intro i hi
    rw [toNat_bitWord (by omega), Nat.one_shiftLeft]
  have hstop := hshift s.length (Nat.le_refl _)
  -- after `j` steps the next word is `j`, as long as no word wraps
  have htake : ∀ j ≤ 2 ^ s.length, take j ⟨s, 0, bitWord s.length⟩ =
      ((List.range j).map s.partition, ⟨s, .ofNat j, bitWord s.length⟩) := by
    intro j hj
    have h := take_eq (p := ⟨s, 0, bitWord s.length⟩) (n := j) (by show s.length ≤ 64; omega)
      (by show 0 + j ≤ (bitWord s.length).toNat; omega)
    rw [h, List.range_eq_range']
    show _ = (_, Partitions.mk s (.ofNat j) _)
    simp only [UInt64.toNat_zero, Nat.zero_add]
  -- and none does, since the last is a power of two below the word size
  have hnext : ∀ j ≤ 2 ^ s.length, (UInt64.ofNat j).toNat = j := by
    intro j hj
    have hpow : 2 ^ s.length ≤ 2 ^ 63 := Nat.pow_le_pow_right (by decide) h
    rw [UInt64.toNat_ofNat', Nat.mod_eq_of_lt (by omega)]
  refine ⟨hshift, ?_, ?_, ?_, ?_⟩
  · intro j hj
    rw [htake j hj]
    exact hnext j hj
  · intro j hj
    rw [htake j hj]
    exact List.map_congr_left fun k _ => s.partition_eq_distributed k
  · intro j hj
    rw [htake j hj, sizeHint_eq (by rw [hstop, hnext j hj]; exact hj), hstop, hnext j hj]
  · intro j hj
    rw [htake j hj]
    rcases Nat.lt_or_eq_of_le hj with hlt | heq
    · rw [next?_of_lt (by rw [hstop, hnext j hj]; exact hlt)]
      simp only [reduceCtorEq, false_iff]
      exact Nat.ne_of_lt hlt
    · rw [next?_of_le (by rw [hstop, hnext j hj, heq])]
      simp only [heq]

end Partitions

/-- A rule that divides the context has an alternative for each distribution. -/
theorem Decomposition.of_divide {rules : RuleSet} (supply : Supply) {s : Sequent} {m : Principal}
    {left right : Sequent} (hm : s.principal? = some m)
    (hi : Inference.of rules m.side m.formula = .ok (.divide left right))
    (h : m.context.length ≤ 63) :
    ∃ alts, of rules supply s = .ok (.step s.tag alts) ∧
      m.context.ListsDistributions (fun parts => ⟨[parts.1.mix left, parts.2.mix right], none⟩)
        alts := by
  refine ⟨_, ?_, m.context.listsDistributions_map _⟩
  have hparts := m.context.partitions?_eq
  rw [if_pos (show m.context.length ≤ Sequent.maxPartitioned from h)] at hparts
  rw [of, hm]
  simp only [hi, Inference.alternatives, hparts, List.map_map]
  rfl

/-- **The partitions of a sequent are all distributions of its members, each once.**
    With at most 63 members, the partitions are handed out in the order of their
    numbers, the announced count is exact at every moment and no word wraps.  Each
    distribution of the members over the two parts stands at exactly one number, and
    the numbers from the other end give the parts exchanged.  With more members there
    are none.

    A multiplicative rule with two premises that finds at most 63 members in the
    context therefore has one alternative for each distribution of the context.  That
    the alternatives of a large context fit into memory is taken for granted. -/
theorem Partitions.enumerates_distributions (s : Sequent) :
    (s.length ≤ 63 →
      (∃ p, ofSequent? s = some p ∧ p.Enumerates s) ∧
      ∃ parts, s.partitions? = some parts ∧ s.ListsDistributions id parts ∧
        ∀ k < 2 ^ s.length, parts[2 ^ s.length - 1 - k]? = (parts[k]?).map Prod.swap) ∧
    (63 < s.length → ofSequent? s = none ∧ s.partitions? = none) ∧
    ∀ (rules : RuleSet) (supply : Supply) (m : Principal) (op : Operator) (p q : Formula),
      s.principal? = some m → m.formula = .binary op p q → (op, m.side) ∈ Inference.dividing →
      (rules.operator op).get m.side = .multiplicative → m.context.length ≤ 63 →
      ∃ left right alts, Inference.of rules m.side m.formula = .ok (.divide left right) ∧
        Decomposition.of rules supply s = .ok (.step s.tag alts) ∧
        m.context.ListsDistributions
          (fun parts => ⟨[parts.1.mix left, parts.2.mix right], none⟩) alts := by
  refine ⟨?_, ?_, ?_⟩
  · intro h
    obtain ⟨parts, hparts, hlists⟩ := Sequent.exists_partitions h
    refine ⟨⟨_, ofSequent?_of_le h, enumerates_ofSequent h⟩, parts, hparts, hlists, ?_⟩
    intro k hk
    have hlength : parts.length = 2 ^ s.length := by
      rw [hlists.length, Sequent.length, Nat.pow_add]
    rw [hlists.bits k (by omega), hlists.bits _ (by omega), id_eq, id_eq,
      s.distributed_complement hk]
    rfl
  · intro h
    exact ⟨if_pos h, Sequent.partitions?_eq_none_iff.mpr h⟩
  · intro rules supply m op p q hm hformula hdividing hdiscipline hlength
    obtain ⟨i, hi⟩ := Inference.exists_of_isComplex (Sequent.isComplex_principal hm) rules m.side
    obtain ⟨left, right, rfl⟩ :=
      (Inference.of_eq_divide_iff hi).mpr ⟨op, p, q, hformula, hdividing, hdiscipline⟩
    obtain ⟨alts, halts, hlists⟩ := Decomposition.of_divide supply hm hi hlength
    exact ⟨left, right, alts, hi, halts, hlists⟩

/-- As many members as can be partitioned, 60 on one side and 3 on the other. -/
def Sequent.widest : Sequent :=
  ⟨.replicate 60 (.atom ⟨"A", []⟩), .replicate 3 (.atom ⟨"B", []⟩)⟩

/-- The sequent `A, A, A; B, B`. -/
def Sequent.five : Sequent :=
  ⟨.replicate 3 (.atom ⟨"A", []⟩), .replicate 2 (.atom ⟨"B", []⟩)⟩

/-- The partitions of 63 members after the first five of them, and a rule that divides
    a context of five members. -/
theorem Partitions.enumerates_widest :
    Sequent.widest.length = 63 ∧
    (∃ p, ofSequent? Sequent.widest = some p ∧
      (p.take 5).2.sizeHint = (2 ^ 63 - 5, some (2 ^ 63 - 5))) ∧
    ∃ alts, Decomposition.of (.uniform .multiplicative) ⟨[], []⟩
        (Sequent.five.mix ⟨[], [.binary .conjunction (.atom ⟨"C", []⟩) (.atom ⟨"D", []⟩)]⟩) =
          .ok (.step (.rule .consequent (.binary .conjunction)) alts) ∧
      alts.length = 2 ^ 3 * 2 ^ 2 := by
  obtain ⟨⟨p, hp, henumerates⟩, -⟩ := (enumerates_distributions Sequent.widest).1 (by decide)
  refine ⟨rfl, ⟨p, hp, henumerates.sizeHint 5 (by decide)⟩, ?_⟩
  obtain ⟨left, right, alts, -, halts, hlists⟩ := (enumerates_distributions
    (Sequent.five.mix ⟨[], [.binary .conjunction (.atom ⟨"C", []⟩) (.atom ⟨"D", []⟩)]⟩)).2.2
    (.uniform .multiplicative) ⟨[], []⟩ _ .conjunction _ _ rfl rfl (by decide) rfl (by decide)
  exact ⟨alts, halts, hlists.length⟩

end SequentCalculus
