import Mathlib.Order.Bounds.Basic
import SequentCalculus.Proofs.Nameless

/-! # Binders — what substitution changes in a formula

    Substitution leaves a formula as it is, down to the names of its bound
    variables, exactly if there is nothing to replace
    (`Formula.subst_eq_self_iff`).

    Where it does replace something, it may rename binders on its way.  Binders
    are told apart by their places.  Going down to a place, substitution meets
    not the part of the formula that stands there but what the renamings above
    have made of it (`Formula.met?`).  Those put fresh variants for free
    occurrences of `w`, so they keep the names of all binders and the whole scope
    of a binder of `w` (`Formula.met?_eq_quantified`): whether the binder at a
    place is renamed is decided by the one step of substitution that meets it. -/

namespace SequentCalculus

/-! ## Nothing to replace -/

theorem Atom.replace_eq_self {x w : String} {a : Atom} (h : x = w ∨ x ∉ a.terms) :
    a.replace x w = a := by
  have hterms : (a.terms.map fun t => if t = x then w else t) = a.terms := by
    rw [List.map_congr_left, List.map_id]
    intro t ht
    show (if t = x then w else t) = t
    by_cases htx : t = x
    · rcases h with rfl | hx
      · rw [if_pos htx, htx]
      · exact absurd (htx ▸ ht) hx
    · rw [if_neg htx]
  rw [Atom.replace, hterms]

namespace Formula

variable {x w : String}

/-- Substitution for a name that is not free, or for itself, changes nothing. -/
theorem subst_eq_self {p : Formula} (h : x = w ∨ x ∉ p.names) : p.subst x w = p := by
  fun_induction subst x w p with
  | case1 a => rw [Atom.replace_eq_self h]
  | case2 p ih => rw [ih h]
  | case3 op p q ihp ihq =>
      rw [ihp (h.imp_right fun hx hp => hx (List.mem_append_left _ hp)),
        ihq (h.imp_right fun hx hq => hx (List.mem_append_right _ hq))]
  | case4 => rfl
  | case5 k y p hyx hc z ih =>
      -- a capture needs a free `x` and another name to put for it
      obtain ⟨rfl, hxp⟩ := captures_eq_true.mp hc
      rcases h with rfl | hx
      · exact absurd rfl hyx
      · exact absurd (mem_names_quantified.mpr ⟨hxp, Ne.symm hyx⟩) hx
  | case6 k y p hyx hc ih =>
      rw [ih (h.imp_right fun hx hxp => hx (mem_names_quantified.mpr ⟨hxp, Ne.symm hyx⟩))]

/-- A substitution changes nothing exactly if it puts a name for itself or for a
    name that is not free. -/
theorem subst_eq_self_iff {p : Formula} : p.subst x w = p ↔ x = w ∨ x ∉ p.names := by
  refine ⟨?_, subst_eq_self⟩
  intro h
  by_contra hne
  obtain ⟨hxw, hx⟩ := not_or.mp hne
  -- `x` is free in `p`, but not any more after the substitution
  have hmem := not_not.mp hx
  rw [← h] at hmem
  rcases mem_names_subst.mp hmem with ⟨-, hxx⟩ | ⟨hxw', -⟩
  · exact hxx rfl
  · exact hxw hxw'

end Formula

/-! ## Places -/

/-- The operand of a formula to go down to; a negation and a quantifier have
    the first only. -/
inductive Turn
  | first
  | second
  deriving DecidableEq, Repr

namespace Formula

/-- The part of a formula at a place. -/
def part? : Formula → (place : List Turn) → Option Formula
  | p, [] => some p
  | negation p, .first :: place => p.part? place
  | binary _ p _, .first :: place => p.part? place
  | binary _ _ q, .second :: place => q.part? place
  | quantified _ _ p, .first :: place => p.part? place
  | _, _ :: _ => none

/-- The formula in which substitution puts `w` for `x` when it comes to a place,
    if it does not end above. -/
def met? (x w : String) : Formula → (place : List Turn) → Option Formula
  | p, [] => some p
  | negation p, .first :: place => p.met? x w place
  | binary _ p _, .first :: place => p.met? x w place
  | binary _ _ q, .second :: place => q.met? x w place
  | quantified _ y p, .first :: place =>
      if y = x then none
      else if captures x w y p then
        (p.subst y (freshVariant y (x :: w :: p.symbols))).met? x w place
      else p.met? x w place
  | _, _ :: _ => none

variable {x y w : String} {p q body : Formula} {place : List Turn} {k : Quantifier}

/-- Blind replacement keeps every binder, and the scope of a binder of the name
    replaced. -/
theorem part?_replaceFree (v z : String) (h : p.part? place = some (quantified k y body)) :
    ∃ scope, (p.replaceFree v z).part? place = some (quantified k y scope) ∧
      (y = v → scope = body) := by
  fun_induction part? p place with
  | case1 p =>
      cases h
      rw [replaceFree]
      by_cases hy : y = v
      · rw [if_pos hy]
        exact ⟨body, rfl, fun _ => rfl⟩
      · rw [if_neg hy]
        exact ⟨_, rfl, fun hyv => absurd hyv hy⟩
  | case2 p place ih => exact ih h
  | case3 op p q place ih => exact ih h
  | case4 op p q place ih => exact ih h
  | case5 k' u p place ih =>
      rw [replaceFree]
      by_cases hu : u = v
      · rw [if_pos hu]
        exact ⟨body, h, fun _ => rfl⟩
      · rw [if_neg hu]
        exact ih h
  | case6 => cases h

/-- Renaming a variable to a fresh variant keeps every binder below, and the
    scope of every binder of the same variable. -/
theorem part?_rename (p : Formula) (v : String) (h : p.part? place = some (quantified k y body)) :
    ∃ scope, (p.subst v (freshVariant v (x :: w :: p.symbols))).part? place =
      some (quantified k y scope) ∧ (y = v → scope = body) := by
  have hz : freshVariant v (x :: w :: p.symbols) ∉ p.symbols := fun hz =>
    freshVariant_not_mem v (x :: w :: p.symbols)
      (List.mem_cons_of_mem _ (List.mem_cons_of_mem _ hz))
  rw [subst_eq_replaceFree hz]
  exact part?_replaceFree v _ h

/-- What substitution meets at the place of a binder is this binder, and its
    scope is as it was if it binds `w`. -/
theorem met?_eq_quantified (h : p.part? place = some (quantified k y body))
    (hmet : p.met? x w place = some q) :
    ∃ scope, q = quantified k y scope ∧ (y = w → scope = body) := by
  fun_induction met? x w p place generalizing body with
  | case1 p =>
      rw [part?] at h
      cases h
      cases hmet
      exact ⟨body, rfl, fun _ => rfl⟩
  | case2 p place ih => exact ih h hmet
  | case3 op p q place ih => exact ih h hmet
  | case4 op p q place ih => exact ih h hmet
  | case5 => cases hmet
  | case6 k' v p place hv hc ih =>
      obtain ⟨rfl, -⟩ := captures_eq_true.mp hc
      obtain ⟨body', hbody', hkept⟩ := part?_rename p v h
      obtain ⟨scope, rfl, hscope⟩ := ih hbody' hmet
      exact ⟨scope, rfl, fun hy => (hscope hy).trans (hkept hy)⟩
  | case7 k' v p place hv hc ih => exact ih h hmet
  | case8 => cases hmet

/-! ## Substitution at a place -/

/-- Where substitution arrives, it leaves the part with the substitution done in
    it. -/
theorem part?_subst_of_met? (hmet : p.met? x w place = some q) :
    (p.subst x w).part? place = some (q.subst x w) := by
  fun_induction met? x w p place with
  | case1 p =>
      cases hmet
      rw [part?]
  | case2 p place ih =>
      rw [subst]
      exact ih hmet
  | case3 op p q place ih =>
      rw [subst]
      exact ih hmet
  | case4 op p q place ih =>
      rw [subst]
      exact ih hmet
  | case5 => cases hmet
  | case6 k v p place hv hc ih =>
      rw [subst_quantified_of_captures hv hc]
      exact ih hmet
  | case7 k v p place hv hc ih =>
      rw [subst, if_neg hv, if_neg hc]
      exact ih hmet
  | case8 => cases hmet

/-- A binder below a binder of `x` keeps its name. -/
theorem part?_subst_of_unmet (h : p.part? place = some (quantified k y body))
    (hmet : p.met? x w place = none) :
    ∃ scope, (p.subst x w).part? place = some (quantified k y scope) := by
  fun_induction met? x w p place generalizing body with
  | case1 p => cases hmet
  | case2 p place ih =>
      rw [subst]
      exact ih h hmet
  | case3 op p q place ih =>
      rw [subst]
      exact ih h hmet
  | case4 op p q place ih =>
      rw [subst]
      exact ih h hmet
  | case5 k' p place =>
      -- the name is bound here, so nothing below is touched
      rw [subst, if_pos rfl]
      exact ⟨body, h⟩
  | case6 k' v p place hv hc ih =>
      -- the binder gives way, and the place below it stays where it is
      rw [subst_quantified_of_captures hv hc]
      obtain ⟨body', hbody', -⟩ := part?_rename p v h
      exact ih hbody' hmet
  | case7 k' v p place hv hc ih =>
      rw [subst, if_neg hv, if_neg hc]
      exact ih h hmet
  | case8 p t place =>
      rw [part?] at h
      · cases h
      all_goals assumption

/-! ## The binders of a formula after substitution -/

/-- Substitution renames the binder of a quantified formula if the binder is `w`
    and `x` is free in the scope, and it then takes the fresh variant. -/
theorem exists_subst_quantified (x w : String) (k : Quantifier) (y : String) (scope : Formula) :
    ∃ z body, (quantified k y scope).subst x w = quantified k z body ∧
      (z ≠ y ↔ y = w ∧ x ≠ w ∧ x ∈ scope.names) ∧
      (z ≠ y → z = freshVariant y (x :: w :: scope.symbols)) := by
  by_cases hyx : y = x
  · refine ⟨y, scope, by rw [subst, if_pos hyx], ?_, fun h => absurd rfl h⟩
    refine iff_of_false (fun h => h rfl) ?_
    rintro ⟨hyw, hxw, -⟩
    exact hxw (hyx.symm.trans hyw)
  · by_cases hc : captures x w y scope = true
    · obtain ⟨rfl, hx⟩ := captures_eq_true.mp hc
      have hz : freshVariant y (x :: y :: scope.symbols) ≠ y := fun h =>
        freshVariant_not_mem y (x :: y :: scope.symbols) (by rw [h]; simp)
      refine ⟨_, _, subst_quantified_of_captures hyx hc, ?_, fun _ => rfl⟩
      exact iff_of_true hz ⟨rfl, Ne.symm hyx, hx⟩
    · refine ⟨y, scope.subst x w, by rw [subst, if_neg hyx, if_neg hc], ?_, fun h => absurd rfl h⟩
      refine iff_of_false (fun h => h rfl) ?_
      rintro ⟨hyw, -, hx⟩
      exact hc (captures_eq_true.mpr ⟨hyw, hx⟩)

/-- The number of the fresh variant is the least from 1 on that gives a name not
    taken. -/
theorem exists_isLeast_freshVariant (y : String) (taken : List String) :
    ∃ n, freshVariant y taken = numbered y n ∧ IsLeast {n | 1 ≤ n ∧ numbered y n ∉ taken} n := by
  obtain ⟨n, hpos, heq, hnot, hleast⟩ := freshVariant_spec y taken
  refine ⟨n, heq, ⟨hpos, hnot⟩, ?_⟩
  rintro m ⟨hm, hmnot⟩
  by_contra hlt
  exact hmnot (hleast m hm (Nat.lt_of_not_le hlt))

/-- **Substitution changes a formula only where it has to.**  It leaves the
    formula as it is exactly if it puts a name for itself or for a name that is
    not free.  Every binder stays at its place, and it is renamed exactly if
    substitution comes there, the binder is `w` and another name `x` is free in
    its scope; the new name is the variant with the least number from 1 on that
    is neither `x` nor `w` nor a symbol of the scope that substitution meets. -/
theorem subst_changes_least (p : Formula) (x w : String) :
    (p.subst x w = p ↔ x = w ∨ x ∉ p.names) ∧
    ∀ place k y body, p.part? place = some (quantified k y body) →
      ∃ z body', (p.subst x w).part? place = some (quantified k z body') ∧
        (z ≠ y ↔ (p.met? x w place).isSome = true ∧ y = w ∧ x ≠ w ∧ x ∈ body.names) ∧
        (z ≠ y → ∃ scope n, p.met? x w place = some (quantified k y scope) ∧
          z = numbered y n ∧
          IsLeast {n | 1 ≤ n ∧ numbered y n ∉ x :: w :: scope.symbols} n) := by
  refine ⟨subst_eq_self_iff, ?_⟩
  intro place k y body hpart
  cases hmet : p.met? x w place with
  | none =>
      -- substitution ends above the place, and its binder stays
      obtain ⟨scope, hscope⟩ := part?_subst_of_unmet hpart hmet
      exact ⟨y, scope, hscope, by simp, fun h => absurd rfl h⟩
  | some q =>
      -- what arrives at the place has its binder, with the scope as it is by then
      obtain ⟨scope, rfl, hkept⟩ := met?_eq_quantified hpart hmet
      obtain ⟨z, body', hsubst, hiff, hfresh⟩ := exists_subst_quantified x w k y scope
      refine ⟨z, body', by rw [part?_subst_of_met? hmet, hsubst], ?_, ?_⟩
      · rw [hiff]
        constructor
        · rintro ⟨hyw, hxw, hx⟩
          exact ⟨rfl, hyw, hxw, hkept hyw ▸ hx⟩
        · rintro ⟨-, hyw, hxw, hx⟩
          exact ⟨hyw, hxw, (hkept hyw).symm ▸ hx⟩
      · intro hz
        obtain ⟨n, hn, hleast⟩ := exists_isLeast_freshVariant y (x :: w :: scope.symbols)
        exact ⟨scope, n, rfl, (hfresh hz).trans hn, hleast⟩

/-- The formula `∃y (R<x, y> & ∀y S<x, y, y_1>)`. -/
def twiceBound : Formula :=
  .quantified .existential "y" (.binary .conjunction (.atom ⟨"R", ["x", "y"]⟩)
    (.quantified .universal "y" (.atom ⟨"S", ["x", "y", "y_1"]⟩)))

/-- Putting `y` for `x` in it renames the inner binder too, to `y_2` as `y_1` is a
    symbol of its scope. -/
theorem subst_changes_least_twiceBound :
    twiceBound.part? [.first, .second] =
        some (quantified .universal "y" (.atom ⟨"S", ["x", "y", "y_1"]⟩)) ∧
      twiceBound.subst "x" "y" ≠ twiceBound ∧
      ∃ body, (twiceBound.subst "x" "y").part? [.first, .second] =
        some (quantified .universal "y_2" body) := by
  obtain ⟨hself, hbinders⟩ := subst_changes_least twiceBound "x" "y"
  have hmet : twiceBound.met? "x" "y" [.first, .second] =
      some (quantified .universal "y" (.atom ⟨"S", ["x", "y", "y_1"]⟩)) := by
    have hc : captures "x" "y" "y" (.binary .conjunction (.atom ⟨"R", ["x", "y"]⟩)
        (.quantified .universal "y" (.atom ⟨"S", ["x", "y", "y_1"]⟩))) = true := by decide
    rw [twiceBound, met?, if_neg (by decide), if_pos hc, subst, met?, met?, subst, if_pos rfl]
  obtain ⟨z, body, hpart, hiff, hname⟩ := hbinders [.first, .second] _ _ _ rfl
  have hz : z ≠ "y" := hiff.mpr ⟨by rw [hmet]; rfl, rfl, by decide, by decide⟩
  obtain ⟨scope, n, hscope, rfl, hleast⟩ := hname hz
  rw [hmet] at hscope
  cases hscope
  have htwo : IsLeast {n | 1 ≤ n ∧
      numbered "y" n ∉ "x" :: "y" :: (Formula.atom ⟨"S", ["x", "y", "y_1"]⟩).symbols} 2 := by
    refine ⟨by decide, ?_⟩
    rintro m ⟨hm, hnot⟩
    by_contra hlt
    obtain rfl : m = 1 := by omega
    exact hnot (by decide)
  rw [hleast.unique htwo] at hpart
  refine ⟨rfl, fun h => ?_, body, hpart⟩
  exact absurd (hself.mp h) (by decide)

end Formula

end SequentCalculus
