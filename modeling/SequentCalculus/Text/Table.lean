/-! # Tables — finite maps from names, in ascending order of the names

    A table keeps its entries sorted and each name once, so two tables with the
    same content are equal. -/

namespace SequentCalculus

/-- Entries in ascending order of their keys, each key once. -/
structure Table (α : Type) where
  entries : List (String × α)
  sorted : entries.Pairwise fun a b => a.1 < b.1

namespace Table

variable {α : Type}

/-- Puts an entry into its place, replacing one with the same key. -/
def insertEntry (k : String) (v : α) : List (String × α) → List (String × α)
  | [] => [(k, v)]
  | (k', v') :: rest =>
      if k < k' then (k, v) :: (k', v') :: rest
      else if k = k' then (k, v) :: rest
      else (k', v') :: insertEntry k v rest

theorem fst_mem_insertEntry {k : String} {v : α} {es : List (String × α)} {e : String × α}
    (h : e ∈ insertEntry k v es) : e.1 = k ∨ e ∈ es := by
  induction es with
  | nil =>
      rw [insertEntry, List.mem_singleton] at h
      exact Or.inl (congrArg Prod.fst h)
  | cons a rest ih =>
      obtain ⟨k', v'⟩ := a
      unfold insertEntry at h
      split at h
      · rcases List.mem_cons.1 h with h | h
        · exact Or.inl (congrArg Prod.fst h)
        · exact Or.inr h
      · split at h
        · rcases List.mem_cons.1 h with h | h
          · exact Or.inl (congrArg Prod.fst h)
          · exact Or.inr (List.mem_cons_of_mem _ h)
        · rcases List.mem_cons.1 h with h | h
          · exact Or.inr (h ▸ List.mem_cons_self)
          · rcases ih h with h | h
            · exact Or.inl h
            · exact Or.inr (List.mem_cons_of_mem _ h)

theorem sorted_insertEntry (k : String) (v : α) {es : List (String × α)}
    (h : es.Pairwise fun a b => a.1 < b.1) :
    (insertEntry k v es).Pairwise fun a b => a.1 < b.1 := by
  induction es with
  | nil => exact List.pairwise_singleton _ _
  | cons a rest ih =>
      obtain ⟨k', v'⟩ := a
      obtain ⟨h1, h2⟩ := List.pairwise_cons.1 h
      unfold insertEntry
      split
      · rename_i hlt
        refine List.pairwise_cons.2 ⟨fun b hb => ?_, h⟩
        rcases List.mem_cons.1 hb with rfl | hb
        · exact hlt
        · exact String.lt_trans hlt (h1 b hb)
      · rename_i hnlt
        split
        · rename_i heq
          exact List.pairwise_cons.2 ⟨fun b hb => heq ▸ h1 b hb, h2⟩
        · rename_i hne
          refine List.pairwise_cons.2 ⟨fun b hb => ?_, ih h2⟩
          rcases fst_mem_insertEntry hb with hk | hb
          · have hlt : k' < k := by
              rcases Std.lt_trichotomy k k' with h | h | h
              · exact absurd h hnlt
              · exact absurd h hne
              · exact h
            exact hk ▸ hlt
          · exact h1 b hb

/-- The table without entries. -/
def empty : Table α := ⟨[], .nil⟩

instance : Inhabited (Table α) := ⟨empty⟩

/-- The table with one entry added or replaced. -/
def insert (t : Table α) (k : String) (v : α) : Table α :=
  ⟨insertEntry k v t.entries, sorted_insertEntry k v t.sorted⟩

/-- The table of a list of entries, where a later one replaces an earlier one. -/
def ofList (es : List (String × α)) : Table α :=
  es.foldl (fun t e => t.insert e.1 e.2) empty

/-- The keys in ascending order. -/
def keys (t : Table α) : List String := t.entries.map (·.1)

/-- The value at a key. -/
def get? (t : Table α) (k : String) : Option α := t.entries.lookup k

end Table

end SequentCalculus
