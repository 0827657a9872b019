import Mathlib.Data.List.Sort
import SequentCalculus.Proofs.Growth

/-! # Which tables describe rule sets

    Reading a rule set starts from the keys of a table and ends with eight
    disciplines.  On the way every key has to be known, every connective and every
    side has to be there, and every value has to name a discipline.  Taken together
    these checks leave one table for each rule set, the one that is written for it
    (`RuleSet.ofTable_iff_toTable`).

    A table is determined by what it holds at the keys that it may have
    (`Table.ext_of_keys`).  This is used on both levels, for the sides of a
    connective and for the connectives, so that a check that is missing would leave
    a key open and break the proof there. -/

namespace SequentCalculus

/-! ## Tables and their keys -/

namespace Table

variable {α : Type}

/-- The entries of a table are what it holds under its keys. -/
theorem mem_entries_iff {t : Table α} {k : String} {v : α} :
    (k, v) ∈ t.entries ↔ t.get? k = some v := by
  rw [get?, List.lookup_eq_some_iff]
  constructor
  · intro h
    obtain ⟨before, after, heq⟩ := List.append_of_mem h
    refine ⟨before, after, heq, ?_⟩
    intro e he
    have hsorted := t.sorted
    rw [heq, List.pairwise_append] at hsorted
    have hlt : e.1 < k := hsorted.2.2 e he (k, v) List.mem_cons_self
    exact bne_iff_ne.mpr fun hk => String.lt_irrefl k (hk ▸ hlt)
  · rintro ⟨before, after, heq, -⟩
    rw [heq]
    exact List.mem_append_right _ List.mem_cons_self

/-- The keys of a table are those under which it holds something. -/
theorem mem_keys_iff {t : Table α} {k : String} : k ∈ t.keys ↔ ∃ v, t.get? k = some v := by
  rw [keys, List.mem_map]
  constructor
  · rintro ⟨⟨k, v⟩, he, rfl⟩
    exact ⟨v, mem_entries_iff.mp he⟩
  · rintro ⟨v, hv⟩
    exact ⟨(k, v), mem_entries_iff.mpr hv, rfl⟩

/-- A table holds nothing under any other key. -/
theorem get?_eq_none_iff {t : Table α} {k : String} : t.get? k = none ↔ k ∉ t.keys := by
  rw [mem_keys_iff]
  cases t.get? k <;> simp

/-- Tables with the same values at all keys are equal. -/
theorem ext_get? {t u : Table α} (h : ∀ k, t.get? k = u.get? k) : t = u := by
  have : Std.Antisymm fun a b : String × α => a.1 < b.1 :=
    ⟨fun _ _ hab hba => absurd hba (String.lt_asymm hab)⟩
  have : Std.Irrefl fun a b : String × α => a.1 < b.1 := ⟨fun a => String.lt_irrefl a.1⟩
  have hentries : t.entries = u.entries := by
    refine t.sorted.eq_of_mem_iff u.sorted ?_
    rintro ⟨k, v⟩
    rw [mem_entries_iff, mem_entries_iff, h k]
  cases t
  cases u
  cases hentries
  rfl

/-- Where only certain keys may stand, the values at these keys are all there is. -/
theorem ext_of_keys {t u : Table α} {ks : List String} (ht : t.keys ⊆ ks) (hu : u.keys ⊆ ks)
    (h : ∀ k ∈ ks, t.get? k = u.get? k) : t = u := by
  refine ext_get? ?_
  intro k
  by_cases hk : k ∈ ks
  · exact h k hk
  · rw [get?_eq_none_iff.mpr fun hmem => hk (ht hmem),
      get?_eq_none_iff.mpr fun hmem => hk (hu hmem)]

end Table

/-! ## Names -/

section Names

variable {α : Type} {name : α → String} {as : List α} {s : String}

theorem find?_name_eq_none_iff : (as.find? fun a => name a == s) = none ↔ s ∉ as.map name := by
  rw [List.find?_eq_none, List.mem_map]
  constructor
  · rintro h ⟨a, ha, rfl⟩
    exact h a ha (beq_self_eq_true _)
  · intro h a ha hs
    exact h ⟨a, ha, beq_iff_eq.mp hs⟩

theorem any_name_eq_true_iff : (as.any fun a => name a == s) = true ↔ s ∈ as.map name := by
  rw [List.any_eq_true, List.mem_map]
  simp only [beq_iff_eq]

/-- No key is found to be unknown if all are known. -/
theorem find?_eq_none_iff_subset {ks known : List String} {unknown : String → Bool}
    (h : ∀ k, unknown k = true ↔ k ∉ known) : ks.find? unknown = none ↔ ks ⊆ known := by
  rw [List.find?_eq_none]
  refine forall₂_congr fun k _ => ?_
  rw [h, not_not]

end Names

theorem Side.ofKey?_isNone_iff (k : String) :
    (Side.ofKey? k).isNone = true ↔ k ∉ ["ant", "con"] := by
  rw [Option.isNone_iff_eq_none]
  exact find?_name_eq_none_iff

/-- Two words name a discipline. -/
theorem Discipline.ofKey?_eq_none_iff {v : String} :
    Discipline.ofKey? v = none ↔ v ∉ ["add", "mul"] :=
  find?_name_eq_none_iff

/-- A word names the discipline that it is the key of. -/
theorem Discipline.ofKey?_eq_some_iff {v : String} {d : Discipline} :
    Discipline.ofKey? v = some d ↔ v = d.key := by
  constructor
  · intro h
    rw [Discipline.ofKey?] at h
    have hkey := List.find?_some h
    exact (beq_iff_eq.mp hkey).symm
  · rintro rfl
    cases d <;> rfl

/-! ## The sides of a connective -/

/-- The table of a pair holds each discipline under its side. -/
theorem RulePair.get?_toTable (p : RulePair) (side : Side) :
    p.toTable.get? side.key = some (p.get side).key := by
  cases side <;> rfl

/-- In the entry of a connective, which has no keys but the sides, the value at a
    side names no discipline. -/
def RuleTable.Misvalued (t : RuleTable) (connective side value : String) : Prop :=
  ∃ sides, t.get? connective = some sides ∧ sides.keys ⊆ ["ant", "con"] ∧
    sides.get? side = some value ∧ value ∉ ["add", "mul"]

namespace RuleSet

/-- A discipline is read if its key stands under the side. -/
theorem readDiscipline_eq_ok_iff {symbol : String} {sides : Table String} {side : Side}
    {d : Discipline} :
    readDiscipline symbol sides side = .ok d ↔ sides.get? side.key = some d.key := by
  unfold readDiscipline
  cases sides.get? side.key with
  | none => simp
  | some v =>
      rw [Option.some_inj, ← Discipline.ofKey?_eq_some_iff]
      cases hv : Discipline.ofKey? v <;> simp [hv]

/-- If none is read, the side is missing or its value is no discipline. -/
theorem readDiscipline_eq_error {symbol : String} {sides : Table String} {side : Side} {e : Error}
    (h : readDiscipline symbol sides side = .error e) :
    e = .unknownConnective symbol (some side.key) ∨
      ∃ v, e = .invalidDiscipline symbol side.key v ∧ sides.get? side.key = some v ∧
        v ∉ ["add", "mul"] := by
  unfold readDiscipline at h
  cases hget : sides.get? side.key with
  | none =>
      rw [hget] at h
      cases h
      exact Or.inl rfl
  | some v =>
      rw [hget] at h
      cases hv : Discipline.ofKey? v with
      | none =>
          simp only [hv] at h
          cases h
          exact Or.inr ⟨v, rfl, rfl, Discipline.ofKey?_eq_none_iff.mp hv⟩
      | some d =>
          simp only [hv] at h
          cases h

/-- A table of sides is read as a pair of disciplines exactly if it is the one that
    is written for them. -/
theorem readSides_eq_ok_iff {t : RuleTable} {c : Connective} {p : RulePair} :
    readSides t c = .ok p ↔ t.get? c.symbol = some p.toTable := by
  unfold readSides
  cases t.get? c.symbol with
  | none => simp
  | some sides =>
      rw [Option.some_inj]
      cases hfind : sides.keys.find? fun k => (Side.ofKey? k).isNone with
      | some k =>
          simp only [hfind]
          constructor
          · intro h
            cases h
          · rintro rfl
            cases hfind
      | none =>
          simp only [hfind, bind_eq_ok_iff, readDiscipline_eq_ok_iff]
          constructor
          · rintro ⟨ant, hant, con, hcon, h⟩
            cases h
            -- both sides are there, and no other key is
            have hknown := (find?_eq_none_iff_subset Side.ofKey?_isNone_iff).mp hfind
            refine Table.ext_of_keys hknown (List.Subset.refl ["ant", "con"]) ?_
            intro k hk
            rcases List.mem_pair.mp hk with rfl | rfl
            · exact hant
            · exact hcon
          · rintro rfl
            exact ⟨p.ant, p.get?_toTable .antecedent, p.con, p.get?_toTable .consequent, rfl⟩

/-- An error names the connective, and where it names a value this value stands
    there. -/
theorem readSides_eq_error {t : RuleTable} {c : Connective} {e : Error}
    (h : readSides t c = .error e) :
    (∃ side, e = .unknownConnective c.symbol side) ∨
      ∃ side value, e = .invalidDiscipline c.symbol side value ∧
        RuleTable.Misvalued t c.symbol side value := by
  unfold readSides at h
  cases hget : t.get? c.symbol with
  | none =>
      rw [hget] at h
      cases h
      exact Or.inl ⟨_, rfl⟩
  | some sides =>
      rw [hget] at h
      cases hfind : sides.keys.find? fun k => (Side.ofKey? k).isNone with
      | some k =>
          simp only [hfind] at h
          cases h
          exact Or.inl ⟨_, rfl⟩
      | none =>
          have hknown := (find?_eq_none_iff_subset Side.ofKey?_isNone_iff).mp hfind
          -- both sides are known by name, so one of their values is at fault
          have hread : ∃ side, readDiscipline c.symbol sides side = .error e := by
            simp only [hfind] at h
            rcases bind_eq_error_iff.mp h with h | ⟨ant, -, h⟩
            · exact ⟨_, h⟩
            · rcases bind_eq_error_iff.mp h with h | ⟨con, -, h⟩
              · exact ⟨_, h⟩
              · cases h
          obtain ⟨side, hread⟩ := hread
          rcases readDiscipline_eq_error hread with rfl | ⟨v, rfl, hv, hname⟩
          · exact Or.inl ⟨_, rfl⟩
          · exact Or.inr ⟨_, _, rfl, sides, hget, hknown, hv, hname⟩

/-! ## All connectives -/

/-- Four connectives can be configured. -/
theorem isUnknown_iff (k : String) :
    (!(configurable.any (·.symbol == k))) = true ↔ k ∉ ["~", "&", "v", "->"] := by
  rw [Bool.not_eq_true', ← Bool.not_eq_true, any_name_eq_true_iff]
  rfl

/-- The table of rules holds each pair under its connective. -/
theorem get?_toTable (r : RuleSet) {c : Connective} {p : RulePair} (h : r.disciplines? c = some p) :
    r.toTable.get? c.symbol = some p.toTable := by
  cases c with
  | negation =>
      cases h
      rfl
  | binary op =>
      cases h
      cases op <;> rfl
  | quantifier k => cases h

/-- A rule set is read when all connectives are known and each is read. -/
theorem ofTable_eq_ok_iff {t : RuleTable} {r : RuleSet} :
    ofTable t = .ok r ↔ t.keys ⊆ ["~", "&", "v", "->"] ∧
      ∀ c p, r.disciplines? c = some p → readSides t c = .ok p := by
  rw [← find?_eq_none_iff_subset isUnknown_iff]
  unfold ofTable
  cases t.keys.find? fun k => !(configurable.any (·.symbol == k)) with
  | some k => simp
  | none =>
      simp only [bind_eq_ok_iff, true_and]
      constructor
      · rintro ⟨n, hn, a, ha, o, ho, i, hi, h⟩ c p hp
        cases h
        cases c with
        | negation =>
            cases hp
            exact hn
        | binary op =>
            cases hp
            cases op
            · exact ha
            · exact ho
            · exact hi
        | quantifier k => cases hp
      · intro h
        exact ⟨_, h .negation _ rfl, _, h (.binary .conjunction) _ rfl,
          _, h (.binary .disjunction) _ rfl, _, h (.binary .conditional) _ rfl, rfl⟩

/-- An error names something missing or unknown, or a wrong value where it stands. -/
theorem ofTable_eq_error {t : RuleTable} {e : Error} (h : ofTable t = .error e) :
    (∃ c side, e = .unknownConnective c side) ∨
      ∃ c side value, e = .invalidDiscipline c side value ∧
        t.keys ⊆ ["~", "&", "v", "->"] ∧ RuleTable.Misvalued t c side value := by
  unfold ofTable at h
  cases hfind : t.keys.find? fun k => !(configurable.any (·.symbol == k)) with
  | some k =>
      rw [hfind] at h
      cases h
      exact Or.inl ⟨_, _, rfl⟩
  | none =>
      have hknown := (find?_eq_none_iff_subset isUnknown_iff).mp hfind
      -- all keys are known, so one of the four connectives is at fault
      have hread : ∃ c, readSides t c = .error e := by
        simp only [hfind] at h
        rcases bind_eq_error_iff.mp h with h | ⟨_, -, h⟩
        · exact ⟨_, h⟩
        rcases bind_eq_error_iff.mp h with h | ⟨_, -, h⟩
        · exact ⟨_, h⟩
        rcases bind_eq_error_iff.mp h with h | ⟨_, -, h⟩
        · exact ⟨_, h⟩
        rcases bind_eq_error_iff.mp h with h | ⟨_, -, h⟩
        · exact ⟨_, h⟩
        · cases h
      obtain ⟨c, hread⟩ := hread
      rcases readSides_eq_error hread with ⟨side, rfl⟩ | ⟨side, value, rfl, hvalue⟩
      · exact Or.inl ⟨_, _, rfl⟩
      · exact Or.inr ⟨_, _, _, rfl, hknown, hvalue⟩

theorem exists_disciplines (r : RuleSet) {c : Connective} (h : c ∈ configurable) :
    ∃ p, r.disciplines? c = some p := by
  cases c with
  | negation => exact ⟨_, rfl⟩
  | binary op => exact ⟨_, rfl⟩
  | quantifier k => simp [configurable] at h

/-- The table of rules has no other connectives. -/
theorem keys_toTable_subset (r : RuleSet) : r.toTable.keys ⊆ ["~", "&", "v", "->"] := by
  show ["&", "->", "v", "~"] ⊆ ["~", "&", "v", "->"]
  decide

/-- Only the table that is written for a rule set is read as that rule set. -/
theorem ofTable_eq_ok_iff_eq {t : RuleTable} {r : RuleSet} :
    ofTable t = .ok r ↔ t = r.toTable := by
  rw [ofTable_eq_ok_iff]
  simp only [readSides_eq_ok_iff]
  constructor
  · rintro ⟨hkeys, hget⟩
    refine Table.ext_of_keys hkeys r.keys_toTable_subset ?_
    intro k hk
    obtain ⟨c, hc, rfl⟩ := List.mem_map.mp (show k ∈ configurable.map Connective.symbol from hk)
    obtain ⟨p, hp⟩ := r.exists_disciplines hc
    rw [hget c p hp, r.get?_toTable hp]
  · rintro rfl
    exact ⟨r.keys_toTable_subset, fun c p hp => r.get?_toTable hp⟩

/-- **A table is read exactly if it is written for a rule set.**  Reading a table
    gives the rule set that it is the table of.  If there is none, a connective or a
    side is reported as unknown, or a value as naming no discipline; the latter only
    if all connectives of the table are known, and the reported value stands at the
    reported side in the entry of the reported connective, which has no unknown
    sides. -/
theorem ofTable_iff_toTable (t : RuleTable) :
    (∀ r, ofTable t = .ok r ↔ t = r.toTable) ∧
    ((∀ r : RuleSet, t ≠ r.toTable) →
      (∃ c side, ofTable t = .error (.unknownConnective c side)) ∨
      ∃ c side value, ofTable t = .error (.invalidDiscipline c side value)) ∧
    ∀ c side value, ofTable t = .error (.invalidDiscipline c side value) →
      t.keys ⊆ ["~", "&", "v", "->"] ∧ RuleTable.Misvalued t c side value := by
  refine ⟨fun r => ofTable_eq_ok_iff_eq, ?_, ?_⟩
  · intro hne
    cases h : ofTable t with
    | ok r => exact absurd (ofTable_eq_ok_iff_eq.mp h) (hne r)
    | error e =>
        rcases ofTable_eq_error h with ⟨c, side, rfl⟩ | ⟨c, side, value, rfl, -⟩
        · exact Or.inl ⟨c, side, rfl⟩
        · exact Or.inr ⟨c, side, value, rfl⟩
  · intro c side value h
    rcases ofTable_eq_error h with ⟨_, _, heq⟩ | ⟨_, _, _, heq, hkeys, hvalue⟩
    · cases heq
    · cases heq
      exact ⟨hkeys, hvalue⟩

/-- The table of the multiplicative rules with a value that names no discipline. -/
def bothTable : RuleTable :=
  (uniform .multiplicative).toTable.insert "&"
    ⟨[("ant", "both"), ("con", "mul")], by decide +kernel⟩

theorem ofTable_bothTable :
    ofTable bothTable = .error (.invalidDiscipline "&" "ant" "both") ∧
      (∀ r : RuleSet, bothTable ≠ r.toTable) ∧ bothTable.keys ⊆ ["~", "&", "v", "->"] ∧
      RuleTable.Misvalued bothTable "&" "ant" "both" := by
  have hread : ofTable bothTable = .error (.invalidDiscipline "&" "ant" "both") := by
    decide +kernel
  obtain ⟨hok, -, herror⟩ := ofTable_iff_toTable bothTable
  refine ⟨hread, ?_, herror _ _ _ hread⟩
  intro r hr
  have h := (hok r).mpr hr
  rw [hread] at h
  cases h

end RuleSet

end SequentCalculus
