import SequentCalculus.Rule.Inference
import SequentCalculus.Sequent.Partition
import SequentCalculus.Witness

/-! # Decomposition — from a sequent to the alternatives that derive it

    The first compound formula of a sequent is taken apart by its rule and the
    context is put in front of the new members.  Each alternative is a list of
    premises that have to be proved together; proving one alternative proves
    the sequent.

    Every premise has fewer connectives than the sequent it derives
    (`Decomposition.connectives_lt`), which bounds the growth of proof trees. -/

namespace SequentCalculus

/-- Premises that together derive a sequent, and the name that a quantifier
    took for them. -/
structure Alternative where
  premises : List Sequent
  witness : Option String := none
  deriving DecidableEq, Repr

/-- One step of decomposition: nothing for an atomic sequent, or the
    alternatives of the rule with the given tag. -/
inductive Decomposition
  | initial
  | step (tag : Tag) (alternatives : List Alternative)
  deriving DecidableEq, Repr

namespace Inference

/-- The alternatives of a rule in the context of a sequent `s`. -/
def alternatives (supply : Supply) (s context : Sequent) :
    Inference → Except Error (List Alternative)
  | extend premise => .ok [⟨[context.mix premise], none⟩]
  | share left right => .ok [⟨[context.mix left, context.mix right], none⟩]
  | choose left right => .ok [⟨[context.mix left], none⟩, ⟨[context.mix right], none⟩]
  | divide left right =>
      match context.partitions? with
      | none => .error (.contextTooLarge context.length)
      | some parts => .ok (parts.map fun lr => ⟨[lr.1.mix left, lr.2.mix right], none⟩)
  | instantiate side x body =>
      .ok ((supply.candidates s).map fun w =>
        ⟨[context.mix (.onSide side [body.subst x w])], some w⟩)

end Inference

namespace Decomposition

/-- The alternatives of a decomposition. -/
def alternatives : Decomposition → List Alternative
  | initial => []
  | step _ alts => alts

/-- The tag of a decomposition. -/
def tag : Decomposition → Tag
  | initial => .identity
  | step tag _ => tag

/-- Takes apart the first compound formula of a sequent. -/
def of (rules : RuleSet) (supply : Supply) (s : Sequent) : Except Error Decomposition :=
  match s.principal? with
  | none => .ok initial
  | some m =>
      match Inference.of rules m.side m.formula with
      | .error e => .error e
      | .ok rule =>
          match rule.alternatives supply s m.context with
          | .error e => .error e
          | .ok alts => .ok (step s.tag alts)

end Decomposition

namespace Inference

/-- The number of connectives that a premise may add to its context. -/
def weight : Inference → Nat
  | extend premise => premise.connectives
  | share left right => left.connectives + right.connectives
  | choose left right => left.connectives + right.connectives
  | divide left right => left.connectives + right.connectives
  | instantiate _ _ body => body.connectives

/-- A rule removes the connective it takes apart. -/
theorem weight_lt {rules : RuleSet} {side : Side} {p : Formula} {i : Inference}
    (h : of rules side p = .ok i) : i.weight < p.connectives := by
  cases p with
  | atom a => exact nomatch h
  | negation p =>
      cases h
      simp [weight, Formula.connectives]
  | binary op p q =>
      cases h
      cases op <;> cases side <;> cases (rules.operator _).get _ <;>
        simp [ofBinary, weight, Formula.connectives]
  | quantified k x p =>
      cases h
      simp [weight, Formula.connectives]

/-- A premise has at most the connectives of its context and of its rule. -/
theorem connectives_le {supply : Supply} {s context : Sequent} {i : Inference}
    {alts : List Alternative} (h : i.alternatives supply s context = .ok alts)
    {alt : Alternative} (halt : alt ∈ alts) {p : Sequent} (hp : p ∈ alt.premises) :
    p.connectives ≤ context.connectives + i.weight := by
  cases i with
  | extend premise =>
      cases h
      simp only [List.mem_singleton] at halt
      subst halt
      simp only [List.mem_singleton] at hp
      subst hp
      simp [weight]
  | share left right =>
      cases h
      simp only [List.mem_singleton] at halt
      subst halt
      simp only [List.mem_cons, List.not_mem_nil, or_false] at hp
      rcases hp with rfl | rfl <;> simp [weight]
  | choose left right =>
      cases h
      simp only [List.mem_cons, List.not_mem_nil, or_false] at halt
      rcases halt with rfl | rfl <;>
        · simp only [List.mem_singleton] at hp
          subst hp
          simp [weight]
  | divide left right =>
      simp only [alternatives] at h
      cases hparts : context.partitions? with
      | none => rw [hparts] at h; exact nomatch h
      | some parts =>
          rw [hparts] at h
          cases h
          obtain ⟨lr, hlr, rfl⟩ := List.mem_map.1 halt
          obtain ⟨k, rfl⟩ := Sequent.exists_partition hparts hlr
          have hk := context.connectives_partition k
          simp only [List.mem_cons, List.not_mem_nil, or_false] at hp
          rcases hp with rfl | rfl <;> simp [weight] <;> omega
  | instantiate side x body =>
      cases h
      obtain ⟨w, -, rfl⟩ := List.mem_map.1 halt
      simp only [List.mem_singleton] at hp
      subst hp
      simp [weight]

end Inference

namespace Decomposition

/-- Every premise has fewer connectives than the decomposed sequent. -/
theorem connectives_lt {rules : RuleSet} {supply : Supply} {s : Sequent}
    {d : Decomposition} (h : of rules supply s = .ok d)
    {alt : Alternative} (halt : alt ∈ d.alternatives) {p : Sequent} (hp : p ∈ alt.premises) :
    p.connectives < s.connectives := by
  unfold of at h
  cases hm : s.principal? with
  | none =>
      rw [hm] at h
      cases h
      exact nomatch halt
  | some m =>
      rw [hm] at h
      simp only at h
      cases hi : Inference.of rules m.side m.formula with
      | error e => rw [hi] at h; exact nomatch h
      | ok rule =>
          rw [hi] at h
          simp only at h
          cases ha : rule.alternatives supply s m.context with
          | error e => rw [ha] at h; exact nomatch h
          | ok alts =>
              rw [ha] at h
              cases h
              have h1 := Inference.weight_lt hi
              have h2 := Inference.connectives_le ha halt hp
              have h3 := Sequent.connectives_principal hm
              omega

end Decomposition

end SequentCalculus
