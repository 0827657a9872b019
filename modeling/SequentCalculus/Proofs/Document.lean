import SequentCalculus.Proofs.Quoting
import SequentCalculus.Toml.Document

/-! # Documents — lines are read as items, and items build tables

    A document made of entries and of headers of list elements is read line by
    line into items (`Reads`).  Only a header with too many keys is refused.

    The items that follow the header of a new element fill it, wherever the
    element stands in the document: what is around it is a list of frames, each
    a table whose last entry is a list that ends in the table inside. -/

namespace SequentCalculus.Toml

/-! ## Keys and paths -/

/-- A key that needs no quotes. -/
def IsBare (k : String) : Prop := k.toList ≠ [] ∧ ∀ c ∈ k.toList, isBareKeyChar c = true

/-- The keys of a path with dots in between. -/
def pathText : List String → List Char
  | [] => []
  | [k] => k.toList
  | k :: ks => k.toList ++ '.' :: pathText ks

theorem pathText_cons (k k' : String) (ks : List String) :
    pathText (k :: k' :: ks) = k.toList ++ '.' :: pathText (k' :: ks) := rfl

/-- One more key goes behind a point. -/
theorem pathText_concat {ks : List String} (h : ks ≠ []) (k : String) :
    pathText (ks ++ [k]) = pathText ks ++ '.' :: k.toList := by
  induction ks with
  | nil => exact absurd rfl h
  | cons k' ks ih =>
      cases ks with
      | nil => rfl
      | cons k'' ks =>
          have ih := ih (List.cons_ne_nil k'' ks)
          rw [List.cons_append] at ih
          rw [List.cons_append, List.cons_append, pathText_cons, ih, pathText_cons,
            List.append_assoc, List.cons_append]

/-- A bare key begins with a character of bare keys. -/
theorem head_of_isBare {k : String} (hk : IsBare k) (rest : List Char) :
    ∃ c cs, k.toList ++ rest = c :: cs ∧ isBareKeyChar c = true := by
  obtain ⟨hne, hall⟩ := hk
  cases hcs : k.toList with
  | nil => exact absurd hcs hne
  | cons c cs =>
      rw [hcs] at hall
      exact ⟨c, cs ++ rest, rfl, hall c List.mem_cons_self⟩

/-- A bare key is read up to the first character that belongs to no such key. -/
theorem readKey?_bare {k : String} (hk : IsBare k) {rest : List Char}
    (hrest : ∀ c ∈ rest.head?, isBareKeyChar c = false) :
    readKey? (k.toList ++ rest) = some (k, rest) := by
  have htake : (k.toList ++ rest).takeWhile isBareKeyChar = k.toList := by
    rw [List.takeWhile_append_of_pos hk.2]
    cases rest with
    | nil => exact List.append_nil _
    | cons c rest => simp [hrest c rfl]
  have hdrop : (k.toList ++ rest).dropWhile isBareKeyChar = rest := by
    rw [List.dropWhile_append_of_pos hk.2]
    cases rest with
    | nil => rfl
    | cons c rest => simp [hrest c rfl]
  obtain ⟨c, cs, heq, hc⟩ := head_of_isBare hk rest
  -- the key is not quoted, since its first character is none of the marks
  rw [readKey?.eq_def]
  split
  · rename_i hquote
    cases heq.symm.trans hquote
    cases hc
  · rename_i hquote
    cases heq.symm.trans hquote
    cases hc
  · simp only [htake, hdrop, String.ofList_toList]
    rw [if_neg]
    simpa using hk.1

/-- There are no blanks before a bare key. -/
theorem skipBlanks_of_isBare {k : String} (hk : IsBare k) (rest : List Char) :
    skipBlanks (k.toList ++ rest) = k.toList ++ rest := by
  obtain ⟨c, cs, heq, hc⟩ := head_of_isBare hk rest
  rw [heq, skipBlanks, List.dropWhile_cons_of_neg]
  rintro h
  rw [Bool.or_eq_true, beq_iff_eq, beq_iff_eq] at h
  rcases h with rfl | rfl <;> cases hc

theorem skipBlanks_pathText {ks : List String} (hne : ks ≠ []) (hks : ∀ k ∈ ks, IsBare k)
    (rest : List Char) : skipBlanks (pathText ks ++ rest) = pathText ks ++ rest := by
  match ks with
  | [] => exact absurd rfl hne
  | [k] => exact skipBlanks_of_isBare (hks k List.mem_cons_self) rest
  | k :: k' :: ks =>
      rw [pathText_cons, List.append_assoc]
      exact skipBlanks_of_isBare (hks k List.mem_cons_self) _

/-- A path is read unless it has too many keys. -/
theorem readPath?_pathText {ks : List String} (hne : ks ≠ []) (hks : ∀ k ∈ ks, IsBare k)
    (limit : Nat) (rest : List Char) :
    readPath? limit (pathText ks ++ ']' :: rest) =
      if ks.length ≤ limit then some (ks, ']' :: rest) else none := by
  induction ks generalizing limit with
  | nil => exact absurd rfl hne
  | cons k ks ih =>
      obtain ⟨hk, hks⟩ := List.forall_mem_cons.mp hks
      cases limit with
      | zero => rfl
      | succ limit =>
          cases ks with
          | nil =>
              have hkey : readKey? (k.toList ++ ']' :: rest) = some (k, ']' :: rest) :=
                readKey?_bare hk (by rintro _ ⟨⟩; decide)
              rw [readPath?, pathText, hkey]
              simp [skipBlanks]
          | cons k' ks =>
              have hne := List.cons_ne_nil k' ks
              have hkey : readKey? (k.toList ++ '.' :: (pathText (k' :: ks) ++ ']' :: rest)) =
                  some (k, '.' :: (pathText (k' :: ks) ++ ']' :: rest)) :=
                readKey?_bare hk (by rintro _ ⟨⟩; decide)
              have hdot : ∀ cs, skipBlanks ('.' :: cs) = '.' :: cs := fun _ => rfl
              rw [pathText_cons, List.append_assoc, List.cons_append, readPath?, hkey]
              simp only [Option.bind_eq_bind, Option.bind_some, hdot,
                skipBlanks_pathText hne hks, ih hne hks]
              have hlength : (k :: k' :: ks).length ≤ limit + 1 ↔ (k' :: ks).length ≤ limit :=
                Nat.succ_le_succ_iff
              simp only [hlength]
              split <;> rfl

/-! ## Lines -/

/-- A quoted string begins with a quotation mark of either kind. -/
theorem head_of_quote (s : String) (rest : List Char) :
    ∃ c cs, (quote s).toList ++ '\n' :: rest = c :: cs ∧ (c = '"' ∨ c = '\'') := by
  have hread := readString?_quote s rest
  rw [readString?.eq_def] at hread
  split at hread
  · exact ⟨_, _, ‹_›, Or.inl rfl⟩
  · exact ⟨_, _, ‹_›, Or.inr rfl⟩
  · exact ⟨_, _, ‹_›, Or.inl rfl⟩
  · exact ⟨_, _, ‹_›, Or.inr rfl⟩
  · cases hread

theorem skipBlanks_quote (s : String) (rest : List Char) :
    skipBlanks ((quote s).toList ++ '\n' :: rest) = (quote s).toList ++ '\n' :: rest := by
  obtain ⟨c, cs, heq, rfl | rfl⟩ := head_of_quote s rest
  · rw [heq]
    rfl
  · rw [heq]
    rfl

/-- A quoted string is read back as a value, up to the end of its line. -/
theorem readValue?_quote (room : Nat) (s : String) (rest : List Char) :
    readValue? room ((quote s).toList ++ '\n' :: rest) = some (.string s, '\n' :: rest) := by
  have hread := readString?_quote s rest
  obtain ⟨c, cs, heq, hc⟩ := head_of_quote s rest
  rw [heq] at hread ⊢
  rcases hc with rfl | rfl
  · rw [readValue?, hread, Option.map_some]
    simp only [String.ofList_toList]
  · rw [readValue?, hread, Option.map_some]
    simp only [String.ofList_toList]

/-- The keys that lead to what an item is about. -/
def Item.path : Item → List String
  | .header path => path
  | .elementHeader path => path
  | .entry path _ => path

/-- The path of an item is not too long. -/
def Item.Fits (i : Item) : Prop := i.path.length ≤ nestingLimit

instance (i : Item) : Decidable i.Fits := inferInstanceAs (Decidable (_ ≤ _))

/-- The header of an element is read back, unless its path is too long. -/
theorem readItem?_elementHeader {ks : List String} (hne : ks ≠ []) (hks : ∀ k ∈ ks, IsBare k)
    (rest : List Char) :
    readItem? ('[' :: '[' :: (pathText ks ++ ']' :: ']' :: '\n' :: rest)) =
      if (Item.elementHeader ks).Fits then some (.elementHeader ks, rest) else none := by
  rw [readItem?, skipBlanks_pathText hne hks, readPath?_pathText hne hks]
  show (if ks.length ≤ nestingLimit then _ else _ : Option _).bind _ =
    if ks.length ≤ nestingLimit then _ else _
  split <;> rfl

/-- An entry with a quoted string is read back. -/
theorem readItem?_entry {k : String} (hk : IsBare k) (s : String) (rest : List Char) :
    readItem? (k.toList ++ ' ' :: '=' :: ' ' :: ((quote s).toList ++ '\n' :: rest)) =
      some (.entry [k] (.string s), rest) := by
  have hkey : readKey? (k.toList ++ ' ' :: '=' :: ' ' :: ((quote s).toList ++ '\n' :: rest)) =
      some (k, ' ' :: '=' :: ' ' :: ((quote s).toList ++ '\n' :: rest)) :=
    readKey?_bare hk (by rintro _ ⟨⟩; decide)
  obtain ⟨c, cs, heq, hc⟩ :=
    head_of_isBare hk (' ' :: '=' :: ' ' :: ((quote s).toList ++ '\n' :: rest))
  have hpath : readPath? nestingLimit (c :: cs) =
      some ([k], '=' :: ' ' :: ((quote s).toList ++ '\n' :: rest)) := by
    rw [← heq, nestingLimit, readPath?, hkey]
    rfl
  have hentry : readEntry? (fun cs => some (skipBlanks cs)) (readValue? nestingLimit) (c :: cs) =
      some ([k], .string s, '\n' :: rest) := by
    have hequals : ∀ cs, skipBlanks ('=' :: cs) = '=' :: cs := fun _ => rfl
    have hblank : ∀ cs, skipBlanks (' ' :: cs) = skipBlanks cs := fun _ => rfl
    rw [ readEntry?, hpath]
    simp only [Option.bind_eq_bind, Option.bind_some, hequals, hblank, skipBlanks_quote,
      readValue?_quote]
  -- an entry begins neither with a bracket nor with two
  rw [heq, readItem?.eq_def]
  split
  · rename_i hsign
    cases hsign
    cases hc
  · rename_i hsign
    cases hsign
    cases hc
  · rw [hentry]
    rfl

/-! ## Texts of several lines -/

/-- A text is read as the given items, unless one of them does not fit. -/
def Reads (text : List Char) (items : List Item) : Prop :=
  ∃ n ≤ text.length, ∀ fuel d rest, readLines? (fuel + n) d (text ++ rest) =
    if ∀ i ∈ items, i.Fits then
      (items.foldlM Assembly.add d).bind fun d => readLines? fuel d rest
    else none

namespace Reads

variable {text text' : List Char} {items items' : List Item}

theorem nil : Reads [] [] := ⟨0, Nat.le_refl 0, fun _ _ _ => rfl⟩

theorem lineEnd : Reads ['\n'] [] := ⟨1, Nat.le_refl 1, fun _ _ _ => rfl⟩

/-- Texts in a row are read as their items in a row. -/
theorem append (h : Reads text items) (h' : Reads text' items') :
    Reads (text ++ text') (items ++ items') := by
  obtain ⟨n, hn, h⟩ := h
  obtain ⟨n', hn', h'⟩ := h'
  refine ⟨n' + n, ?_, ?_⟩
  · rw [List.length_append]
    omega
  · intro fuel d rest
    rw [← Nat.add_assoc, List.append_assoc, h]
    simp only [h']
    by_cases hfits : ∀ i ∈ items, i.Fits
    · by_cases hfits' : ∀ i ∈ items', i.Fits
      · rw [if_pos hfits, if_pos (List.forall_mem_append.mpr ⟨hfits, hfits'⟩),
          List.foldlM_append, Option.bind_eq_bind, Option.bind_assoc]
        simp only [if_pos hfits']
      · -- what does not fit stops the reading, whatever came before
        rw [if_pos hfits, if_neg fun h => hfits' (List.forall_mem_append.mp h).2]
        simp only [if_neg hfits', Option.bind_fun_none]
    · rw [if_neg hfits, if_neg fun h => hfits (List.forall_mem_append.mp h).1]

/-- A line that begins with neither a blank, a line end nor a comment is read as
    one item. -/
theorem item {c : Char} {cs : List Char} {i : Item} (hc : c ∉ [' ', '\t', '\n', '\r', '#'])
    (h : ∀ rest, readItem? (c :: cs ++ rest) = if i.Fits then some (i, rest) else none) :
    Reads (c :: cs) [i] := by
  refine ⟨1, Nat.succ_le_succ (Nat.zero_le _), ?_⟩
  intro fuel d rest
  simp only [List.mem_cons, List.not_mem_nil, or_false, not_or] at hc
  obtain ⟨hspace, htab, hline, hreturn, hhash⟩ := hc
  have hskip : skipBlanks (c :: cs ++ rest) = c :: cs ++ rest := by
    rw [List.cons_append, skipBlanks, List.dropWhile_cons_of_neg]
    simp [hspace, htab]
  rw [readLines?, hskip]
  split
  case h_1 heq => cases heq
  case h_2 heq => exact absurd (List.cons.inj heq).1 hline
  case h_3 heq => exact absurd (List.cons.inj heq).1 hreturn
  case h_4 heq => exact absurd (List.cons.inj heq).1 hhash
  case h_5 =>
    rw [h]
    simp only [List.forall_mem_singleton, List.foldlM_cons, List.foldlM_nil]
    by_cases hfits : i.Fits
    · simp only [if_pos hfits]
      cases d.add i <;> rfl
    · simp only [if_neg hfits]

/-- The header of an element is read as such. -/
theorem elementHeader {ks : List String} (hne : ks ≠ []) (hks : ∀ k ∈ ks, IsBare k) :
    Reads ('[' :: '[' :: (pathText ks ++ [']', ']', '\n'])) [.elementHeader ks] := by
  refine item (by decide) fun rest => ?_
  have h := readItem?_elementHeader hne hks rest
  simpa using h

/-- An entry with a quoted string is read as such. -/
theorem entry {k : String} (hk : IsBare k) (s : String) :
    Reads (k.toList ++ ' ' :: '=' :: ' ' :: ((quote s).toList ++ ['\n']))
      [.entry [k] (.string s)] := by
  obtain ⟨c, cs, heq, hc⟩ := head_of_isBare hk (' ' :: '=' :: ' ' :: ((quote s).toList ++ ['\n']))
  have hmark : c ∉ [' ', '\t', '\n', '\r', '#'] := by
    simp only [List.mem_cons, List.not_mem_nil, or_false]
    rintro (rfl | rfl | rfl | rfl | rfl) <;> cases hc
  rw [heq]
  refine item hmark fun rest => ?_
  rw [← heq]
  have h := readItem?_entry hk s rest
  have hfits : (Item.entry [k] (.string s)).Fits := by
    show 1 ≤ nestingLimit
    decide
  rw [if_pos hfits]
  simpa using h

end Reads

/-- A document is read by adding its items one after the other. -/
theorem parse?_of_reads {text : String} {items : List Item} (h : Reads text.toList items)
    (hmark : ∀ rest, text.toList ≠ '\ufeff' :: rest) :
    parse? text = if ∀ i ∈ items, i.Fits then
      (items.foldlM Assembly.add {}).map fun d => entriesValue d.root else none := by
  obtain ⟨n, hn, h⟩ := h
  have hrun := h (text.toList.length - n + 1) {} []
  rw [show text.toList.length - n + 1 + n = text.toList.length + 1 by omega,
    List.append_nil] at hrun
  have hparse : parse? text = (readLines? (text.toList.length + 1) {} text.toList).map
      fun d => entriesValue d.root := by
    unfold parse?
    split
    · rename_i heq
      exact absurd heq (hmark _)
    · rfl
  rw [hparse, hrun]
  split
  · cases items.foldlM Assembly.add {} <;> rfl
  · rfl

/-! ## Where an item acts -/

/-- A table around a place in a document: its last entry is a list of tables,
    and the place is in the last of them. -/
structure Frame where
  front : Entries
  key : String
  /-- The other tables of the list, last first. -/
  earlier : List Entries
  fresh : front.lookup key = none

/-- Puts entries at the place inside the frames, the outermost first. -/
def plug : List Frame → Entries → Entries
  | [], es => es
  | f :: fs, es => f.front ++ [(f.key, .series (plug fs es :: f.earlier))]

/-- The keys that lead to the place inside the frames. -/
def framePath (fs : List Frame) : List String := fs.map Frame.key

/-- The innermost frame is filled first. -/
theorem plug_concat (fs : List Frame) (f : Frame) (es : Entries) :
    plug (fs ++ [f]) es = plug fs (f.front ++ [(f.key, .series (es :: f.earlier))]) := by
  induction fs with
  | nil => rfl
  | cons g fs ih => rw [List.cons_append, plug, plug, ih]

/-- The innermost frame has the last key. -/
theorem framePath_concat (fs : List Frame) (f : Frame) :
    framePath (fs ++ [f]) = framePath fs ++ [f.key] := by
  simp [framePath]

theorem lookup_append_of_fresh {front : Entries} {k : String} (fresh : front.lookup k = none)
    (d : Draft) : (front ++ [(k, d)]).lookup k = some d := by
  rw [List.lookup_append, fresh]
  simp

/-- The last entry is replaced, if its key is new. -/
theorem replaceEntry_append_of_fresh {front : Entries} {k : String}
    (fresh : front.lookup k = none) (d d' : Draft) :
    replaceEntry k d' (front ++ [(k, d)]) = front ++ [(k, d')] := by
  induction front with
  | nil => simp [replaceEntry]
  | cons e front ih =>
      obtain ⟨k', d''⟩ := e
      by_cases hk : k' = k
      · subst hk
        rw [List.lookup_cons_self] at fresh
        cases fresh
      · have hne : (k == k') = false := by simpa using fun h => hk h.symm
        rw [List.lookup_cons, hne] at fresh
        rw [List.cons_append, replaceEntry, if_neg hk, ih fresh]
        rfl

/-- A change at the path of the frames changes what is inside them. -/
theorem changeAt_framePath (change : Entries → Option Entries) (fs : List Frame)
    (origin : Origin) (es : Entries) :
    changeAt false (fun _ => change) (framePath fs) origin (plug fs es) =
      (change es).map (plug fs) := by
  induction fs generalizing origin with
  | nil =>
      show change es = (change es).map id
      rw [Option.map_id]
      rfl
  | cons f fs ih =>
      show changeAt false (fun _ => change) (f.key :: framePath fs) origin (plug (f :: fs) es) = _
      rw [plug, changeAt, lookup_append_of_fresh f.fresh]
      simp only [ih, replaceEntry_append_of_fresh f.fresh]
      rw [Option.map_map]
      rfl

/-- An entry goes to the table whose header came last. -/
theorem add_entry_framePath {k : String} {es : Entries} (fresh : es.lookup k = none) (v : Value)
    (fs : List Frame) :
    Assembly.add ⟨plug fs es, framePath fs⟩ (.entry [k] v) =
      some ⟨plug fs (es ++ [(k, .closed v)]), framePath fs⟩ := by
  rw [Assembly.add, changeAt_framePath, assign, addEntry, fresh]
  rfl

/-! ## Lists of tables -/

theorem splitLast_concat (k : String) (ks : List String) (last : String) :
    splitLast k (ks ++ [last]) = (k :: ks, last) := by
  induction ks generalizing k with
  | nil => rfl
  | cons k' ks ih => rw [List.cons_append, splitLast, ih]

/-- The entry of a list of tables, last first; there is none if the list is
    empty. -/
def listed (k : String) : List Entries → Entries
  | [] => []
  | es :: elements => [(k, .series (es :: elements))]

/-- What the header of a list element does to the table that the list is in. -/
def openNext (k : String) (es : Entries) : Option Entries :=
  match es.lookup k with
  | none => some (es ++ [(k, .series [[]])])
  | some (.series elements) => some (replaceEntry k (.series ([] :: elements)) es)
  | some _ => none

/-- An element is opened in the table that the keys before the last lead to. -/
theorem openElement_concat (ks : List String) (k : String) (es : Entries) :
    openElement (ks ++ [k]) es = changeAt false (fun _ => openNext k) ks .header es := by
  cases ks with
  | nil => rfl
  | cons k' ks =>
      rw [List.cons_append, openElement, splitLast_concat]
      rfl

/-- A header opens one more table of a list at the end of the frames. -/
theorem openElement_framePath {front : Entries} {k : String} (fresh : front.lookup k = none)
    (fs : List Frame) (elements : List Entries) :
    openElement (framePath fs ++ [k]) (plug fs (front ++ listed k elements)) =
      some (plug (fs ++ [⟨front, k, elements, fresh⟩]) []) := by
  have hnext : openNext k (front ++ listed k elements) =
      some (front ++ [(k, .series ([] :: elements))]) := by
    cases elements with
    | nil => rw [listed, List.append_nil, openNext, fresh]
    | cons es elements =>
        rw [listed, openNext, lookup_append_of_fresh fresh]
        simp only [replaceEntry_append_of_fresh fresh]
  rw [openElement_concat, changeAt_framePath, hnext, plug_concat]
  rfl

/-- At the end of any frames the items, given the path, fill a new table with the
    entries. -/
def Fills (items : List String → List Item) (es : Entries) : Prop :=
  ∀ fs, ∃ current, (items (framePath fs)).foldlM Assembly.add ⟨plug fs [], framePath fs⟩ =
    some ⟨plug fs es, current⟩

section Elements

variable {α : Type} {items : α → List String → List Item} {entries : α → Entries} {as : List α}

/-- Headers with the items of their tables extend a list of tables. -/
theorem foldlM_elements (h : ∀ a ∈ as, Fills (items a) (entries a)) (fs : List Frame)
    {front : Entries} {k : String} (fresh : front.lookup k = none) (elements : List Entries)
    (current : List String) :
    ∃ current', (as.flatMap fun a =>
        .elementHeader (framePath fs ++ [k]) :: items a (framePath fs ++ [k])).foldlM Assembly.add
          ⟨plug fs (front ++ listed k elements), current⟩ =
      some ⟨plug fs (front ++ listed k ((as.map entries).reverse ++ elements)), current'⟩ := by
  induction as generalizing elements current with
  | nil => exact ⟨current, rfl⟩
  | cons a as ih =>
      obtain ⟨ha, has⟩ := List.forall_mem_cons.mp h
      -- the header opens an empty table, and its items act inside one more frame
      obtain ⟨current', hfill⟩ := ha (fs ++ [⟨front, k, elements, fresh⟩])
      obtain ⟨current'', hrest⟩ := ih has (entries a :: elements) current'
      refine ⟨current'', ?_⟩
      rw [framePath_concat] at hfill
      rw [List.flatMap_cons, List.foldlM_append, List.foldlM_cons, Assembly.add,
        openElement_framePath fresh, Option.map_some, Option.bind_eq_bind, Option.bind_some,
        hfill, Option.bind_some, plug_concat, List.map_cons, List.reverse_cons, List.append_assoc]
      exact hrest

/-- Headers with the items of their tables add a list of tables. -/
theorem foldlM_list (h : ∀ a ∈ as, Fills (items a) (entries a)) (fs : List Frame)
    {front : Entries} {k : String} (fresh : front.lookup k = none) (current : List String) :
    ∃ current', (as.flatMap fun a =>
        .elementHeader (framePath fs ++ [k]) :: items a (framePath fs ++ [k])).foldlM Assembly.add
          ⟨plug fs front, current⟩ =
      some ⟨plug fs (front ++ listed k (as.map entries).reverse), current'⟩ := by
  have hfold := foldlM_elements h fs fresh [] current
  rw [listed, List.append_nil, List.append_nil] at hfold
  exact hfold

end Elements

/-! ## Finished tables -/

/-- The elements of a series become tables. -/
theorem seriesValues_eq_map (elements : List Entries) :
    seriesValues elements = elements.map fun es => .table (entriesValue es) := by
  induction elements with
  | nil => rfl
  | cons es elements ih => rw [seriesValues, ih, List.map_cons]

/-- A series, kept in reverse while it is read, becomes the array of its elements in
    order. -/
theorem entriesValue_listed_reverse {elements : List Entries} (h : elements ≠ []) (k : String) :
    entriesValue (listed k elements.reverse) =
      [(k, .array (elements.map fun es => .table (entriesValue es)))] := by
  have hlisted : listed k elements.reverse = [(k, .series elements.reverse)] := by
    cases hrev : elements.reverse with
    | nil => exact absurd (List.reverse_eq_nil_iff.mp hrev) h
    | cons es rest => rfl
  rw [hlisted, entriesValue, Draft.value, seriesValues_eq_map, List.map_reverse,
    List.reverse_reverse]
  rfl

end SequentCalculus.Toml
