import Mathlib.Data.List.Basic
import SequentCalculus.Cbor.Item

/-! # CBOR items — which survive being written and read

    An item is written as a head, which gives its kind and a number, and what
    the number counts.  The head is self-delimiting (`isHead_head`), and so is
    every item: whatever follows it is left to be read
    (`Item.Canonical.isReadBack`).

    Two limits stand between an item and its bytes.  A number is written in
    eight bytes at most, so lengths are below `lengthLimit`; this holds of every
    item whose bytes can be counted.  And the reader enters only so many lists,
    maps and tags within each other, which is a condition on `Item.nesting`:
    an item is read back if it is nested no deeper, and refused if it is. -/

namespace SequentCalculus.Cbor

/-- The bound on numbers and lengths: eight bytes hold no more. -/
def lengthLimit : Nat := 0x10000000000000000

/-! ## Heads -/

/-- Taking as many bytes as a list has from what begins with it gives the list. -/
theorem take?_append (bs rest : List UInt8) : take? bs.length (bs ++ rest) = some (bs, rest) := by
  induction bs with
  | nil => rfl
  | cons b bs ih =>
      rw [List.length_cons, List.cons_append, take?, ih]
      rfl

/-- A number takes as many bytes as it is given. -/
theorem length_bigEndian (n v : Nat) : (bigEndian n v).length = n := by
  induction n generalizing v with
  | zero => rfl
  | succ n ih => rw [bigEndian, List.length_cons, ih]

/-- The bytes of a number spell it behind any others. -/
theorem foldl_bigEndian {n v : Nat} (acc : Nat) (h : v < Nat.pow 256 n) :
    (bigEndian n v).foldl (fun n b => 256 * n + b.toNat) acc = acc * Nat.pow 256 n + v := by
  induction n generalizing v acc with
  | zero =>
      have hv : v = 0 := Nat.lt_one_iff.mp h
      subst hv
      show acc = acc * 1 + 0
      omega
  | succ n ih =>
      have hpos : 0 < Nat.pow 256 n := Nat.pow_pos (by decide)
      have hsucc : Nat.pow 256 (n + 1) = Nat.pow 256 n * 256 := rfl
      have hdigit : v / Nat.pow 256 n < 256 := by
        rw [Nat.div_lt_iff_lt_mul hpos, Nat.mul_comm, ← hsucc]
        exact h
      have hbyte : (UInt8.ofNat (v / Nat.pow 256 n)).toNat = v / Nat.pow 256 n :=
        UInt8.toNat_ofNat_of_lt' hdigit
      rw [bigEndian, List.foldl_cons, ih _ (Nat.mod_lt _ hpos), hbyte, hsucc]
      calc (256 * acc + v / Nat.pow 256 n) * Nat.pow 256 n + v % Nat.pow 256 n
          = 256 * acc * Nat.pow 256 n +
              (v / Nat.pow 256 n * Nat.pow 256 n + v % Nat.pow 256 n) := by
            rw [Nat.add_mul, Nat.add_assoc]
        _ = acc * (Nat.pow 256 n * 256) + v := by
            rw [Nat.div_mul_self_eq_mod_sub_self, Nat.sub_add_cancel (Nat.mod_le _ _),
              Nat.mul_comm 256 acc, Nat.mul_assoc, Nat.mul_comm 256]

/-- A number that fits into its bytes is read back from them. -/
theorem ofBigEndian_bigEndian {n v : Nat} (h : v < Nat.pow 256 n) :
    ofBigEndian (bigEndian n v) = v := by
  rw [ofBigEndian, foldl_bigEndian 0 h, Nat.zero_mul, Nat.zero_add]

/-- The widths of a number behind the head byte, and the lower five bits that
    announce them. -/
def IsWidth (low width : Nat) : Prop :=
  (low = 24 ∧ width = 1) ∨ (low = 25 ∧ width = 2) ∨ (low = 26 ∧ width = 4) ∨
    (low = 27 ∧ width = 8)

/-- A small argument stands in the head itself. -/
theorem argument?_small {low : Nat} (h : low < 24) (bs : List UInt8) :
    argument? low bs = some (.value true low, bs) := by
  simp [argument?, h]

/-- A larger argument is read from the bytes behind the head. -/
theorem argument?_bigEndian {low width n : Nat} (hwidth : IsWidth low width)
    (hn : n < Nat.pow 256 width) (rest : List UInt8) :
    argument? low (bigEndian width n ++ rest) = some (.value false n, rest) := by
  have htake : take? width (bigEndian width n ++ rest) = some (bigEndian width n, rest) := by
    have happend := take?_append (bigEndian width n) rest
    rw [length_bigEndian] at happend
    exact happend
  rcases hwidth with ⟨rfl, rfl⟩ | ⟨rfl, rfl⟩ | ⟨rfl, rfl⟩ | ⟨rfl, rfl⟩ <;>
    simp [argument?, htake, ofBigEndian_bigEndian hn]

/-- The bytes are a head: the first gives the kind, and the number is read from
    them whatever follows. -/
def IsHead (kind n : Nat) (bs : List UInt8) : Prop :=
  ∃ b tail, bs = b :: tail ∧ b.toNat / 32 = kind ∧
    ∀ rest, argument? (b.toNat % 32) (tail ++ rest) = some (.value (decide (n < 24)) n, rest)

/-- A byte whose upper three bits are the kind is a head together with what its
    lower five announce. -/
theorem isHead_cons {kind low n : Nat} (hkind : kind < 8) (hlow : low < 32) {tail : List UInt8}
    (h : ∀ rest, argument? low (tail ++ rest) = some (.value (decide (n < 24)) n, rest)) :
    IsHead kind n (UInt8.ofNat (32 * kind + low) :: tail) := by
  have hbyte : (UInt8.ofNat (32 * kind + low)).toNat = 32 * kind + low :=
    UInt8.toNat_ofNat_of_lt' (show 32 * kind + low < 256 by omega)
  refine ⟨_, tail, rfl, ?_, ?_⟩
  · rw [hbyte]
    omega
  · intro rest
    have hbits : (32 * kind + low) % 32 = low := by omega
    rw [hbyte, hbits]
    exact h rest

/-- Every head that is written is read back. -/
theorem isHead_head {kind n : Nat} (hkind : kind < 8) (hn : n < lengthLimit) :
    IsHead kind n (head kind n) := by
  have hwide : ∀ low width, IsWidth low width → n < Nat.pow 256 width → ¬ n < 24 →
      IsHead kind n (UInt8.ofNat (32 * kind + low) :: bigEndian width n) := by
    intro low width hwidth hlt hlarge
    have hlow : low < 32 := by
      rcases hwidth with h | h | h | h <;> omega
    refine isHead_cons hkind hlow ?_
    intro rest
    rw [decide_eq_false hlarge]
    exact argument?_bigEndian hwidth hlt rest
  -- the widths are tried in turn, and the first that holds `n` is announced
  unfold head
  by_cases h24 : n < 24
  · rw [if_pos h24]
    refine isHead_cons hkind (by omega) ?_
    intro rest
    rw [decide_eq_true h24]
    exact argument?_small h24 rest
  · rw [if_neg h24]
    by_cases h1 : n < 0x100
    · rw [if_pos h1]
      exact hwide 24 1 (Or.inl ⟨rfl, rfl⟩) h1 h24
    · rw [if_neg h1]
      by_cases h2 : n < 0x10000
      · rw [if_pos h2]
        exact hwide 25 2 (Or.inr (Or.inl ⟨rfl, rfl⟩)) h2 h24
      · rw [if_neg h2]
        by_cases h4 : n < 0x100000000
        · rw [if_pos h4]
          exact hwide 26 4 (Or.inr (Or.inr (Or.inl ⟨rfl, rfl⟩))) h4 h24
        · rw [if_neg h4]
          exact hwide 27 8 (Or.inr (Or.inr (Or.inr ⟨rfl, rfl⟩))) hn h24

/-! ## Reading behind a head -/

variable {kind n room : Nat} {bs rest : List UInt8}

/-- There is no room to enter a list, a map or a tag. -/
theorem item?_zero_of_isHead (h : IsHead kind n bs) (hkind : 4 ≤ kind ∧ kind ≤ 6) :
    item? 0 (bs ++ rest) = none := by
  obtain ⟨b, tail, rfl, hb, -⟩ := h
  rw [List.cons_append, item?, hb, if_pos hkind]

/-- The head of an array is followed by its items. -/
theorem item?_array_of_isHead (h : IsHead 4 n bs) :
    item? (room + 1) (bs ++ rest) =
      (exactly? (item? room) n rest).map fun r => (.array r.1, r.2) := by
  obtain ⟨b, tail, rfl, hb, hargument⟩ := h
  rw [List.cons_append, item?.eq_def]
  simp only [hb, hargument]
  rfl

/-- The head of a map is followed by its entries, and its width is remembered. -/
theorem item?_map_of_isHead (h : IsHead 5 n bs) :
    item? (room + 1) (bs ++ rest) =
      (exactly? (pair? (item? room)) n rest).map fun r => (.map (decide (n < 24)) r.1, r.2) := by
  obtain ⟨b, tail, rfl, hb, hargument⟩ := h
  rw [List.cons_append, item?.eq_def]
  simp only [hb, hargument]
  rfl

theorem item?_tagged_of_isHead (h : IsHead 6 n bs) :
    item? (room + 1) (bs ++ rest) = (item? room rest).map fun r => (.tagged n r.1, r.2) := by
  obtain ⟨b, tail, rfl, hb, hargument⟩ := h
  rw [List.cons_append, item?.eq_def]
  simp only [hb, hargument]
  rfl

theorem item?_unsigned_of_isHead (h : IsHead 0 n bs) :
    item? room (bs ++ rest) = some (.unsigned n, rest) := by
  obtain ⟨b, tail, rfl, hb, hargument⟩ := h
  rw [List.cons_append, item?.eq_def]
  simp [hb, hargument, plain?]

theorem item?_negative_of_isHead (h : IsHead 1 n bs) :
    item? room (bs ++ rest) = some (.negative n, rest) := by
  obtain ⟨b, tail, rfl, hb, hargument⟩ := h
  rw [List.cons_append, item?.eq_def]
  simp [hb, hargument, plain?]

theorem item?_bytes_of_isHead {s : List UInt8} (h : IsHead 2 s.length bs) :
    item? room (bs ++ (s ++ rest)) = some (.bytes s, rest) := by
  obtain ⟨b, tail, rfl, hb, hargument⟩ := h
  rw [List.cons_append, item?.eq_def]
  simp [hb, hargument, plain?, string?, take?_append]

theorem item?_text_of_isHead {s : String} (h : IsHead 3 (utf8Bytes s).length bs) :
    item? room (bs ++ (utf8Bytes s ++ rest)) = some (.text s, rest) := by
  obtain ⟨b, tail, rfl, hb, hargument⟩ := h
  rw [List.cons_append, item?.eq_def]
  simp [hb, hargument, plain?, string?, take?_append, utf8Text?_utf8Bytes]

/-- Booleans, null and fractions have no argument. -/
theorem item?_simple {b : UInt8} (hb : b.toNat / 32 = 7) :
    item? room (b :: rest) = plain? 7 (b.toNat % 32) rest := by
  rw [item?.eq_def]
  simp [hb]

/-! ## Repetition -/

section Repetition

variable {α : Type} {read : List UInt8 → Option (α × List UInt8)} {write : α → List UInt8}
  {fits : α → Prop} [DecidablePred fits]

/-- If single things are read back as far as they fit, so are several of them,
    and the first that does not fit stops the reading. -/
theorem exactly?_flatMap {as : List α}
    (h : ∀ a ∈ as, ∀ rest, read (write a ++ rest) = if fits a then some (a, rest) else none)
    (rest : List UInt8) :
    exactly? read as.length (as.flatMap write ++ rest) =
      if ∀ a ∈ as, fits a then some (as, rest) else none := by
  induction as with
  | nil => rfl
  | cons a as ih =>
      have ha := h a List.mem_cons_self (as.flatMap write ++ rest)
      have has := ih fun b hb => h b (List.mem_cons_of_mem _ hb)
      rw [List.length_cons, exactly?, List.flatMap_cons, List.append_assoc, ha]
      by_cases hfits : fits a
      · rw [if_pos hfits]
        show (exactly? read as.length (as.flatMap write ++ rest)).map _ = _
        rw [has]
        by_cases hall : ∀ b ∈ as, fits b
        · rw [if_pos hall, if_pos (List.forall_mem_cons.mpr ⟨hfits, hall⟩)]
          rfl
        · rw [if_neg hall, if_neg fun h => hall (List.forall_mem_cons.mp h).2]
          rfl
      · rw [if_neg hfits, if_neg fun h => hfits (h a List.mem_cons_self)]

/-- If keys and values are read back where they fit, so are entries where both fit. -/
theorem pair?_append (fits : α → Prop) [DecidablePred fits] {k v : α}
    (hk : ∀ rest, read (write k ++ rest) = if fits k then some (k, rest) else none)
    (hv : ∀ rest, read (write v ++ rest) = if fits v then some (v, rest) else none)
    (rest : List UInt8) :
    pair? read ((write k ++ write v) ++ rest) =
      if fits k ∧ fits v then some ((k, v), rest) else none := by
  rw [pair?, List.append_assoc, hk]
  by_cases hfits : fits k
  · simp only [if_pos hfits, hv]
    by_cases hfits' : fits v
    · rw [if_pos hfits', if_pos ⟨hfits, hfits'⟩]
    · rw [if_neg hfits', if_neg fun h => hfits' h.2]
  · rw [if_neg hfits, if_neg fun h => hfits h.1]

/-- Items of at least one byte are no more than their bytes. -/
theorem length_le_flatMap {as : List α} (h : ∀ a ∈ as, 0 < (write a).length) :
    as.length ≤ (as.flatMap write).length := by
  induction as with
  | nil => exact Nat.le_refl _
  | cons a as ih =>
      have ha := h a List.mem_cons_self
      have has := ih fun b hb => h b (List.mem_cons_of_mem _ hb)
      rw [List.flatMap_cons, List.length_append, List.length_cons]
      omega

/-- The bytes of one item are no more than those of all. -/
theorem length_le_flatMap_of_mem (write : α → List UInt8) {as : List α} {a : α} (h : a ∈ as) :
    (write a).length ≤ (as.flatMap write).length := by
  obtain ⟨front, back, rfl⟩ := List.append_of_mem h
  rw [List.flatMap_append, List.flatMap_cons, List.length_append, List.length_append]
  omega

end Repetition

/-! ## Items -/

/-- Items are encoded one after the other. -/
theorem encodeItems_eq_flatMap (is : List Item) : encodeItems is = is.flatMap Item.encode := by
  induction is with
  | nil => rfl
  | cons i is ih => rw [encodeItems, ih, List.flatMap_cons]

theorem encodeEntries_eq_flatMap (es : List (Item × Item)) :
    encodeEntries es = es.flatMap fun e => e.1.encode ++ e.2.encode := by
  induction es with
  | nil => rfl
  | cons e es ih => rw [encodeEntries, ih, List.flatMap_cons, List.append_assoc]

mutual

/-- The most lists, maps and tags within each other. -/
def Item.nesting : Item → Nat
  | .array items => 1 + itemsNesting items
  | .map _ entries => 1 + entriesNesting entries
  | .tagged _ item => 1 + item.nesting
  | _ => 0

/-- The most that one of several items has. -/
def itemsNesting : List Item → Nat
  | [] => 0
  | i :: is => max i.nesting (itemsNesting is)

/-- The most that a key or a value has. -/
def entriesNesting : List (Item × Item) → Nat
  | [] => 0
  | (k, v) :: es => max (max k.nesting v.nesting) (entriesNesting es)

end

/-- The levels of a document: its own, and one for every list, map and tag that
    has to be entered to reach what lies deepest. -/
def Item.levels (i : Item) : Nat := 1 + i.nesting

/-- The nesting of items is the greatest of theirs. -/
theorem itemsNesting_le_iff {is : List Item} :
    itemsNesting is ≤ n ↔ ∀ i ∈ is, i.nesting ≤ n := by
  induction is with
  | nil => simp [itemsNesting]
  | cons i is ih => rw [itemsNesting, Nat.max_le, ih, List.forall_mem_cons]

theorem entriesNesting_le_iff {es : List (Item × Item)} :
    entriesNesting es ≤ n ↔ ∀ e ∈ es, e.1.nesting ≤ n ∧ e.2.nesting ≤ n := by
  induction es with
  | nil => simp [entriesNesting]
  | cons e es ih => rw [entriesNesting, Nat.max_le, Nat.max_le, ih, List.forall_mem_cons]

/-- What is written of the item is all there is to it: numbers fit eight bytes,
    fractions have two, four or eight, and a map is marked by its length. -/
inductive Item.Canonical : Item → Prop
  | unsigned {n : Nat} (hn : n < lengthLimit) : Canonical (.unsigned n)
  | negative {n : Nat} (hn : n < lengthLimit) : Canonical (.negative n)
  | bytes (bs : List UInt8) : Canonical (.bytes bs)
  | text (s : String) : Canonical (.text s)
  | array {is : List Item} (h : ∀ i ∈ is, Canonical i) : Canonical (.array is)
  | map {inHead : Bool} {es : List (Item × Item)} (hlength : inHead = decide (es.length < 24))
      (hkeys : ∀ e ∈ es, Canonical e.1) (hvalues : ∀ e ∈ es, Canonical e.2) :
      Canonical (.map inHead es)
  | tagged {tag : Nat} {i : Item} (htag : tag < lengthLimit) (h : Canonical i) :
      Canonical (.tagged tag i)
  | boolean (b : Bool) : Canonical (.boolean b)
  | null : Canonical .null
  | float {bs : List UInt8} (h : bs.length = 2 ∨ bs.length = 4 ∨ bs.length = 8) :
      Canonical (.float bs)

/-- Every head has a byte. -/
theorem length_head_pos (kind n : Nat) : 0 < (head kind n).length := by
  unfold head
  repeat' split
  all_goals exact Nat.succ_pos _

theorem Item.length_encode_pos (i : Item) : 0 < i.encode.length := by
  cases i with
  | boolean b => cases b <;> exact Nat.one_pos
  | null => exact Nat.one_pos
  | float bs => exact Nat.succ_pos _
  | unsigned n | negative n =>
      rw [encode]
      exact length_head_pos _ _
  | bytes bs | text s | array items | map inHead entries | tagged tag item =>
      rw [encode, List.length_append]
      exact Nat.add_pos_left (length_head_pos _ _) _

theorem length_utf8Bytes (s : String) : (utf8Bytes s).length = s.utf8ByteSize := rfl

/-! ## The round trip -/

namespace Item

/-- The item is read back from its bytes, whatever follows, if there is room for
    its nesting, and refused otherwise. -/
def IsReadBack (i : Item) : Prop :=
  ∀ room rest, item? room (i.encode ++ rest) = if i.nesting ≤ room then some (i, rest) else none

/-- An item that holds no others is read back if it is read in any room. -/
theorem isReadBack_of_nesting_eq_zero {i : Item} (hzero : i.nesting = 0)
    (h : ∀ room rest, item? room (i.encode ++ rest) = some (i, rest)) : i.IsReadBack := by
  intro room rest
  rw [h, hzero, if_pos (Nat.zero_le _)]

/-- An array is read back if its items are, with one level less of room. -/
theorem isReadBack_array {is : List Item} (hlength : is.length < lengthLimit)
    (h : ∀ i ∈ is, i.IsReadBack) : (array is).IsReadBack := by
  intro room rest
  have hhead : IsHead 4 is.length (head 4 is.length) := isHead_head (by decide) hlength
  rw [encode, encodeItems_eq_flatMap, List.append_assoc, nesting]
  cases room with
  | zero => rw [item?_zero_of_isHead hhead (by decide), if_neg (by omega)]
  | succ room =>
      -- one level of room is used up by the list itself
      rw [item?_array_of_isHead hhead, exactly?_flatMap fun i hi => h i hi room]
      by_cases hfits : itemsNesting is ≤ room
      · rw [if_pos (itemsNesting_le_iff.mp hfits), if_pos (by omega)]
        rfl
      · rw [if_neg fun hall => hfits (itemsNesting_le_iff.mpr hall), if_neg (by omega)]
        rfl

/-- A map is read back if its keys and values are. -/
theorem isReadBack_map {es : List (Item × Item)} (hlength : es.length < lengthLimit)
    (hk : ∀ e ∈ es, e.1.IsReadBack) (hv : ∀ e ∈ es, e.2.IsReadBack) :
    (map (decide (es.length < 24)) es).IsReadBack := by
  intro room rest
  have hhead : IsHead 5 es.length (head 5 es.length) := isHead_head (by decide) hlength
  rw [encode, encodeEntries_eq_flatMap, List.append_assoc, nesting]
  cases room with
  | zero => rw [item?_zero_of_isHead hhead (by decide), if_neg (by omega)]
  | succ room =>
      rw [item?_map_of_isHead hhead,
        exactly?_flatMap fun e he =>
          pair?_append (fun i : Item => i.nesting ≤ room) (hk e he room) (hv e he room)]
      by_cases hfits : entriesNesting es ≤ room
      · rw [if_pos (entriesNesting_le_iff.mp hfits), if_pos (by omega)]
        rfl
      · rw [if_neg fun hall => hfits (entriesNesting_le_iff.mpr hall), if_neg (by omega)]
        rfl

/-- A tagged item is read back if the item is. -/
theorem isReadBack_tagged {tag : Nat} {i : Item} (htag : tag < lengthLimit) (h : i.IsReadBack) :
    (tagged tag i).IsReadBack := by
  intro room rest
  have hhead : IsHead 6 tag (head 6 tag) := isHead_head (by decide) htag
  rw [encode, List.append_assoc, nesting]
  cases room with
  | zero => rw [item?_zero_of_isHead hhead (by decide), if_neg (by omega)]
  | succ room =>
      rw [item?_tagged_of_isHead hhead, h]
      by_cases hfits : i.nesting ≤ room
      · rw [if_pos hfits, if_pos (by omega)]
        rfl
      · rw [if_neg hfits, if_neg (by omega)]
        rfl

/-- A float is read back in each of its three widths. -/
theorem isReadBack_float {bs : List UInt8}
    (h : bs.length = 2 ∨ bs.length = 4 ∨ bs.length = 8) : (float bs).IsReadBack := by
  refine isReadBack_of_nesting_eq_zero rfl ?_
  intro room rest
  have htake := take?_append bs rest
  rw [encode, List.cons_append]
  rcases h with h | h | h <;>
    · rw [h] at htake ⊢
      rw [item?_simple (by decide)]
      show (take? _ (bs ++ rest)).map _ = _
      rw [htake]
      rfl

/-- Canonical items whose bytes can be counted are read back. -/
theorem Canonical.isReadBack {i : Item} (h : i.Canonical)
    (hlength : i.encode.length < lengthLimit) : i.IsReadBack := by
  induction h with
  | unsigned hn =>
      refine isReadBack_of_nesting_eq_zero rfl fun room rest => ?_
      exact item?_unsigned_of_isHead (isHead_head (by decide) hn)
  | negative hn =>
      refine isReadBack_of_nesting_eq_zero rfl fun room rest => ?_
      exact item?_negative_of_isHead (isHead_head (by decide) hn)
  | bytes bs =>
      rw [encode, List.length_append] at hlength
      refine isReadBack_of_nesting_eq_zero rfl fun room rest => ?_
      rw [encode, List.append_assoc]
      exact item?_bytes_of_isHead (isHead_head (by decide) (by omega))
  | text s =>
      rw [encode, List.length_append, ← length_utf8Bytes] at hlength
      refine isReadBack_of_nesting_eq_zero rfl fun room rest => ?_
      rw [encode, List.append_assoc, ← length_utf8Bytes]
      exact item?_text_of_isHead (isHead_head (by decide) (by omega))
  | @array is _ ih =>
      rw [encode, encodeItems_eq_flatMap, List.length_append] at hlength
      -- each item takes a byte at least, so the bytes bound the count in the head
      have hcount : is.length ≤ (is.flatMap encode).length :=
        length_le_flatMap fun i _ => i.length_encode_pos
      refine isReadBack_array (by omega) fun i hi => ih i hi ?_
      have hle : i.encode.length ≤ (is.flatMap encode).length :=
        length_le_flatMap_of_mem encode hi
      omega
  | @map _ es hinHead _ _ ihk ihv =>
      subst hinHead
      rw [encode, encodeEntries_eq_flatMap, List.length_append] at hlength
      have hle : ∀ e ∈ es, (e.1.encode ++ e.2.encode).length ≤
          (es.flatMap fun e => e.1.encode ++ e.2.encode).length := by
        intro e he
        exact length_le_flatMap_of_mem (fun e : Item × Item => e.1.encode ++ e.2.encode) he
      simp only [List.length_append] at hle
      have hcount : es.length ≤ (es.flatMap fun e => e.1.encode ++ e.2.encode).length := by
        refine length_le_flatMap fun e _ => ?_
        rw [List.length_append]
        exact Nat.add_pos_left e.1.length_encode_pos _
      refine isReadBack_map (by omega) (fun e he => ihk e he ?_) (fun e he => ihv e he ?_)
      · have := hle e he
        omega
      · have := hle e he
        omega
  | tagged htag _ ih =>
      rw [encode, List.length_append] at hlength
      exact isReadBack_tagged htag (ih (by omega))
  | boolean b =>
      refine isReadBack_of_nesting_eq_zero rfl fun room rest => ?_
      cases b with
      | false => exact item?_simple (by decide)
      | true => exact item?_simple (by decide)
  | null =>
      refine isReadBack_of_nesting_eq_zero rfl fun room rest => ?_
      exact item?_simple (by decide)
  | float hbs => exact isReadBack_float hbs

end Item

/-- A document is read back if it has no more levels than the reader admits, and
    is refused otherwise. -/
theorem decode?_encode {i : Item} (h : i.Canonical) (hlength : i.encode.length < lengthLimit) :
    decode? i.encode = if i.levels ≤ 128 then some i else none := by
  have hread := h.isReadBack hlength nestingLimit []
  rw [List.append_nil] at hread
  have hlevels : i.levels ≤ 128 ↔ i.nesting ≤ nestingLimit := by
    rw [Item.levels, nestingLimit]
    omega
  rw [decode?, hread]
  by_cases hfits : i.nesting ≤ nestingLimit
  · rw [if_pos hfits, if_pos (hlevels.mpr hfits)]
  · rw [if_neg hfits, if_neg (fun hle => hfits (hlevels.mp hle))]

end SequentCalculus.Cbor
