import Mathlib.Data.List.Nodup
import Mathlib.Data.List.Perm.Subperm
import SequentCalculus.Formula.Substitution

/-! # The laws of substitution — numbered variants and renaming

    Renaming a bound variable rests on two facts.  Different numbers give
    different variants of a variable, so among one more variants than there are
    taken names one is free, and `freshVariant` finds the first of them
    (`freshVariant_spec`).  And a variant that does not occur in a scope can be
    put for a free name there without being captured, so the renaming is itself
    a substitution (`Formula.subst_quantified_of_captures`). -/

namespace SequentCalculus

/-! ## Numbered variants -/

/-- Different numbers are written with different digits. -/
theorem toDigits_inj {m n : Nat} (h : Nat.toDigits 10 m = Nat.toDigits 10 n) : m = n := by
  rw [← Nat.ofDigitChars_ten_toDigits (n := m), h, Nat.ofDigitChars_ten_toDigits]

/-- A number is written with digits only. -/
theorem not_mem_toDigits {c : Char} (h : c.isDigit = false) (n : Nat) :
    c ∉ Nat.toDigits 10 n := by
  intro hmem
  rw [Nat.isDigit_of_mem_toDigits (by decide) (by decide) hmem] at h
  cases h

/-- Different numbers give different variants. -/
theorem numbered_inj {x : String} {m n : Nat} (h : numbered x m = numbered x n) : m = n := by
  have hdigits : Nat.toDigits 10 m = Nat.toDigits 10 n := by
    simpa [numbered, String.ext_iff, Nat.toString_eq_ofList_toDigits] using h
  exact toDigits_inj hdigits

/-- A list that holds the first `k` variants of a variable has `k` members. -/
theorem le_length_of_numbered_mem {x : String} {taken : List String} {k : Nat}
    (h : ∀ n ∈ List.range' 1 k, numbered x n ∈ taken) : k ≤ taken.length := by
  have hnodup : ((List.range' 1 k).map (numbered x)).Nodup :=
    List.Nodup.map (fun _ _ => numbered_inj) (List.nodup_range' 1)
  have hsub : (List.range' 1 k).map (numbered x) ⊆ taken := by
    intro y hy
    obtain ⟨n, hn, rfl⟩ := List.mem_map.mp hy
    exact h n hn
  have hle := (List.subperm_of_subset hnodup hsub).length_le
  simpa using hle

/-- The fresh variant is the one with the least number from 1 on that is not
    taken. -/
theorem freshVariant_spec (x : String) (taken : List String) :
    ∃ n, 1 ≤ n ∧ freshVariant x taken = numbered x n ∧ numbered x n ∉ taken ∧
      ∀ m, 1 ≤ m → m < n → numbered x m ∈ taken := by
  unfold freshVariant
  cases hf : (List.range' 1 (taken.length + 1)).find? fun n => numbered x n ∉ taken with
  | none =>
      have hall : ∀ n ∈ List.range' 1 (taken.length + 1), numbered x n ∈ taken := by
        intro n hn
        simpa using List.find?_eq_none.mp hf n hn
      have := le_length_of_numbered_mem hall
      omega
  | some n =>
      obtain ⟨hn, hmem, hleast⟩ := List.find?_range'_eq_some.mp hf
      have hpos : 1 ≤ n := (List.mem_range'_1.mp hmem).1
      refine ⟨n, hpos, rfl, by simpa using hn, ?_⟩
      intro m hm hlt
      simpa using hleast m hm hlt

/-- The fresh variant is not taken. -/
theorem freshVariant_not_mem (x : String) (taken : List String) :
    freshVariant x taken ∉ taken := by
  obtain ⟨n, -, heq, hnot, -⟩ := freshVariant_spec x taken
  rw [heq]
  exact hnot

/-! ## Renaming -/

/-- What is in a list after putting `w` for `x` in it. -/
theorem mem_map_replace {x w n : String} {ts : List String} :
    n ∈ (ts.map fun t => if t = x then w else t) ↔ (n ∈ ts ∧ n ≠ x) ∨ (n = w ∧ x ∈ ts) := by
  rw [List.mem_map]
  constructor
  · rintro ⟨t, ht, rfl⟩
    by_cases h : t = x
    · subst h
      exact Or.inr ⟨if_pos rfl, ht⟩
    · rw [if_neg h]
      exact Or.inl ⟨ht, h⟩
  · rintro (⟨hn, hx⟩ | ⟨rfl, hx⟩)
    · exact ⟨n, hn, if_neg hx⟩
    · exact ⟨x, hx, if_pos rfl⟩

theorem Atom.mem_terms_replace {x w n : String} {a : Atom} :
    n ∈ (a.replace x w).terms ↔ (n ∈ a.terms ∧ n ≠ x) ∨ (n = w ∧ x ∈ a.terms) :=
  mem_map_replace

namespace Formula

@[simp] theorem mem_names_quantified {k : Quantifier} {x n : String} {p : Formula} :
    n ∈ (quantified k x p).names ↔ n ∈ p.names ∧ n ≠ x := by
  simp [names]

/-- Free names are symbols. -/
theorem mem_symbols_of_mem_names {p : Formula} {n : String} (h : n ∈ p.names) :
    n ∈ p.symbols := by
  induction p with
  | atom a => exact h
  | negation p ih => exact ih h
  | binary op p q ihp ihq =>
      rcases List.mem_append.mp h with h | h
      · exact List.mem_append_left _ (ihp h)
      · exact List.mem_append_right _ (ihq h)
  | quantified k x p ih => exact List.mem_cons_of_mem _ (ih (mem_names_quantified.mp h).1)

theorem captures_eq_true {x w y : String} {p : Formula} :
    captures x w y p = true ↔ y = w ∧ x ∈ p.names := by
  simp [captures]

/-- A name that does not occur is never captured, so blind replacement puts it
    in the same places. -/
theorem subst_eq_replaceFree {y z : String} {p : Formula} (hz : z ∉ p.symbols) :
    p.subst y z = p.replaceFree y z := by
  induction p with
  | atom a => rw [subst, replaceFree]
  | negation p ih => rw [subst, replaceFree, ih hz]
  | binary op p q ihp ihq =>
      rw [subst, replaceFree, ihp fun h => hz (List.mem_append_left _ h),
        ihq fun h => hz (List.mem_append_right _ h)]
  | quantified k x p ih =>
      obtain ⟨hzx, hzp⟩ := not_or.mp fun h => hz (List.mem_cons.mpr h)
      have hc : ¬ captures y z x p = true := fun h => hzx (captures_eq_true.mp h).1.symm
      rw [subst, replaceFree]
      by_cases hx : x = y
      · rw [if_pos hx, if_pos hx]
      · rw [if_neg hx, if_neg hx, if_neg hc, ih hzp]

/-- Where a bound variable would capture the name, substitution works twice on
    the scope: the fresh variant for the variable, then `w` for `x`. -/
theorem subst_quantified_of_captures {x w y : String} {k : Quantifier} {p : Formula}
    (hyx : y ≠ x) (hc : captures x w y p = true) :
    (quantified k y p).subst x w =
      quantified k (freshVariant y (x :: w :: p.symbols))
        ((p.subst y (freshVariant y (x :: w :: p.symbols))).subst x w) := by
  have hz : freshVariant y (x :: w :: p.symbols) ∉ p.symbols := fun h =>
    freshVariant_not_mem y (x :: w :: p.symbols)
      (List.mem_cons_of_mem _ (List.mem_cons_of_mem _ h))
  rw [subst_eq_replaceFree hz, subst, if_neg hyx, if_pos hc]

end Formula

end SequentCalculus
