import SequentCalculus.Sequent.Basic

/-! # Partitions — every way to deal a sequent's members to two sequents

    The partitions of a sequent are numbered from 0.  Partition `k` sends member
    `i`, counted through the antecedent and then the consequent, to the right part
    exactly when bit `i` of `k` is set; each part keeps the side and the order of
    its members.  The first partition leaves everything on the left and the last
    one on the right.

    `Partitions` hands them out one by one, with their numbers in 64-bit words.
    Enumeration is offered for at most `Sequent.maxPartitioned` members, the largest
    count whose partition numbers and their end fit a word; within it no word ever
    wraps, so that all partitions come in the order of their numbers
    (`Sequent.partitions?_eq`). -/

namespace SequentCalculus

/-- Deals a list to two lists by the bits of `k`, lowest bit first: a set bit
    sends the member to the second list. -/
def deal {α : Type} : Nat → List α → List α × List α
  | _, [] => ([], [])
  | k, a :: as =>
      let (left, right) := deal (k / 2) as
      if k % 2 = 0 then (a :: left, right) else (left, a :: right)

/-- The word in which bit `i` alone is set, for `i` below 64. -/
def bitWord (i : Nat) : UInt64 := 1 <<< UInt64.ofNat i

/-- Deals a list to two lists by the bits of a word, from bit `i` on. -/
def dealWord {α : Type} (mask : UInt64) : Nat → List α → List α × List α
  | _, [] => ([], [])
  | i, a :: as =>
      let (left, right) := dealWord mask (i + 1) as
      if mask &&& bitWord i = 0 then (a :: left, right) else (left, a :: right)

namespace Sequent

/-- The largest number of members whose partitions are enumerated. -/
def maxPartitioned : Nat := 63

/-- Partition number `k`. -/
def partition (s : Sequent) (k : Nat) : Sequent × Sequent :=
  let (antLeft, antRight) := deal k s.antecedent
  let (conLeft, conRight) := deal (k >>> s.antecedent.length) s.consequent
  (⟨antLeft, conLeft⟩, ⟨antRight, conRight⟩)

/-- The partition whose number is a word. -/
def dealt (s : Sequent) (mask : UInt64) : Sequent × Sequent :=
  let (antLeft, antRight) := dealWord mask 0 s.antecedent
  let (conLeft, conRight) := dealWord mask s.antecedent.length s.consequent
  (⟨antLeft, conLeft⟩, ⟨antRight, conRight⟩)

end Sequent

/-- The partitions of a sequent that are still to be handed out: those from number
    `next` up to the one before `stop`. -/
structure Partitions where
  sequent : Sequent
  next : UInt64
  stop : UInt64
  deriving DecidableEq, Repr

namespace Partitions

/-- All partitions of a sequent, if they are enumerated. -/
def ofSequent? (s : Sequent) : Option Partitions :=
  if s.length > Sequent.maxPartitioned then none else some ⟨s, 0, bitWord s.length⟩

/-- Hands out the next partition. -/
def next? (p : Partitions) : Option ((Sequent × Sequent) × Partitions) :=
  if p.stop.toNat ≤ p.next.toNat then none
  else some (p.sequent.dealt p.next, { p with next := p.next + 1 })

/-- How many are still to come, at least and, if known, at most. -/
def sizeHint (p : Partitions) : Nat × Option Nat :=
  let count := (p.stop - p.next).toNat
  (count, some count)

/-- Hands out a number of partitions, and leaves those after them. -/
def drop : Nat → Partitions → Partitions
  | 0, p => p
  | n + 1, p =>
      match p.next? with
      | none => p
      | some (_, p') => drop n p'

/-- Hands out a number of partitions after those in `done`, which are given last
    first. -/
def takeAfter : Nat → List (Sequent × Sequent) → Partitions → List (Sequent × Sequent) × Partitions
  | 0, done, p => (done.reverse, p)
  | n + 1, done, p =>
      match p.next? with
      | none => (done.reverse, p)
      | some (parts, p') => takeAfter n (parts :: done) p'

/-- Hands out a number of partitions: these, and the rest. -/
def take (n : Nat) (p : Partitions) : List (Sequent × Sequent) × Partitions := takeAfter n [] p

/-- Leaves out some partitions and hands out some after them.  If none is wanted,
    none is left out. -/
def slice (skip n : Nat) (p : Partitions) : List (Sequent × Sequent) × Partitions :=
  if n = 0 then ([], p) else (p.drop skip).take n

/-- The partition behind the next `k` ones. -/
def nth? (k : Nat) (p : Partitions) : Option (Sequent × Sequent) := (p.drop k).next?.map (·.1)

end Partitions

/-- All partitions of a sequent in order, or `none` for a sequent with more than
    `maxPartitioned` members. -/
def Sequent.partitions? (s : Sequent) : Option (List (Sequent × Sequent)) :=
  (Partitions.ofSequent? s).map fun p => (p.take p.sizeHint.1).1

/-! ## Words and numbers -/

theorem toNat_bitWord {i : Nat} (h : i < 64) : (bitWord i).toNat = 1 <<< i := by
  have hi : (UInt64.ofNat i).toNat % 64 = i := by
    rw [UInt64.toNat_ofNat', Nat.mod_eq_of_lt (Nat.lt_trans h (by decide)), Nat.mod_eq_of_lt h]
  rw [bitWord, UInt64.toNat_shiftLeft, hi]
  refine Nat.mod_eq_of_lt ?_
  show 1 <<< i < _
  rw [Nat.one_shiftLeft]
  exact Nat.pow_lt_pow_right (by decide) h

theorem shiftRight_mod_two_eq_zero_iff (k i : Nat) :
    k >>> i % 2 = 0 ↔ k.testBit i = false := by
  rw [Nat.testBit, Nat.one_and_eq_mod_two]
  simp

/-- A word is tested for bit `i` by its remainder after a shift. -/
theorem and_bitWord_eq_zero_iff (mask : UInt64) {i : Nat} (h : i < 64) :
    mask &&& bitWord i = 0 ↔ mask.toNat >>> i % 2 = 0 := by
  rw [shiftRight_mod_two_eq_zero_iff, ← UInt64.toNat_inj, UInt64.toNat_and, toNat_bitWord h,
    Nat.one_shiftLeft]
  show _ = 0 ↔ _
  constructor
  · intro hzero
    have hi := congrArg (Nat.testBit · i) hzero
    simpa using hi
  · intro hfalse
    refine Nat.eq_of_testBit_eq ?_
    intro j
    rw [Nat.testBit_and, Nat.testBit_two_pow, Nat.zero_testBit]
    by_cases hj : i = j
    · rw [← hj, hfalse, Bool.false_and]
    · rw [decide_eq_false hj, Bool.and_false]

theorem dealWord_eq_deal {α : Type} (mask : UInt64) (as : List α) {i : Nat}
    (h : i + as.length ≤ 64) : dealWord mask i as = deal (mask.toNat >>> i) as := by
  induction as generalizing i with
  | nil => rfl
  | cons a as ih =>
      rw [List.length_cons] at h
      have htail : dealWord mask (i + 1) as = deal (mask.toNat >>> i / 2) as := by
        rw [ih (by omega), Nat.shiftRight_succ]
      rw [dealWord, deal, htail]
      simp only [and_bitWord_eq_zero_iff mask (show i < 64 by omega)]

theorem Sequent.dealt_eq_partition (s : Sequent) (h : s.length ≤ 64) (mask : UInt64) :
    s.dealt mask = s.partition mask.toNat := by
  rw [Sequent.length] at h
  rw [Sequent.dealt, Sequent.partition, dealWord_eq_deal mask s.antecedent (by omega),
    dealWord_eq_deal mask s.consequent h]
  rfl

/-! ## Handing out -/

namespace Partitions

/-- Before the end the number after `next` is counted without wrapping. -/
theorem toNat_succ_next {p : Partitions} (h : p.next.toNat < p.stop.toNat) :
    (p.next + 1).toNat = p.next.toNat + 1 := by
  have hstop := p.stop.toNat_lt
  rw [UInt64.toNat_add]
  exact Nat.mod_eq_of_lt (Nat.lt_of_le_of_lt (Nat.succ_le_of_lt h) hstop)

theorem next?_of_lt {p : Partitions} (h : p.next.toNat < p.stop.toNat) :
    p.next? = some (p.sequent.dealt p.next, { p with next := p.next + 1 }) := by
  rw [next?, if_neg (Nat.not_le_of_lt h)]

theorem next?_of_le {p : Partitions} (h : p.stop.toNat ≤ p.next.toNat) : p.next? = none := by
  rw [next?, if_pos h]

theorem takeAfter_eq (n : Nat) (done : List (Sequent × Sequent)) (p : Partitions)
    (h : p.next.toNat + n ≤ p.stop.toNat) :
    takeAfter n done p =
      (done.reverse ++ (List.range' p.next.toNat n).map fun k => p.sequent.dealt (.ofNat k),
        { p with next := .ofNat (p.next.toNat + n) }) := by
  induction n generalizing done p with
  | zero => simp [takeAfter]
  | succ n ih =>
      have hlt : p.next.toNat < p.stop.toNat := by omega
      have hsucc := toNat_succ_next hlt
      rw [takeAfter, next?_of_lt hlt]
      simp only
      rw [ih _ _ (by simp only [hsucc]; omega)]
      simp only [hsucc, List.range'_succ, List.map_cons, List.reverse_cons, List.append_assoc,
        List.singleton_append, UInt64.ofNat_toNat, Nat.add_assoc, Nat.add_comm 1]

/-- What is handed out are the partitions in the order of their numbers. -/
theorem take_eq {p : Partitions} (hlength : p.sequent.length ≤ 64) {n : Nat}
    (h : p.next.toNat + n ≤ p.stop.toNat) :
    p.take n = ((List.range' p.next.toNat n).map p.sequent.partition,
      { p with next := .ofNat (p.next.toNat + n) }) := by
  rw [take, takeAfter_eq n [] p h, List.reverse_nil, List.nil_append]
  congr 1
  refine List.map_congr_left ?_
  intro k hk
  have hstop := p.stop.toNat_lt
  have hlt : k < p.next.toNat + n := (List.mem_range'_1.mp hk).2
  rw [p.sequent.dealt_eq_partition hlength, UInt64.toNat_ofNat', Nat.mod_eq_of_lt (by omega)]

theorem sizeHint_eq {p : Partitions} (h : p.next.toNat ≤ p.stop.toNat) :
    p.sizeHint = (p.stop.toNat - p.next.toNat, some (p.stop.toNat - p.next.toNat)) := by
  rw [sizeHint, UInt64.toNat_sub_of_le _ _ (UInt64.le_iff_toNat_le.mpr h)]

end Partitions

/-- The partitions of a sequent are numbered without gaps. -/
theorem Sequent.partitions?_eq (s : Sequent) :
    s.partitions? = if s.length ≤ maxPartitioned then
      some ((List.range (1 <<< s.length)).map s.partition) else none := by
  rw [partitions?, Partitions.ofSequent?]
  by_cases h : s.length ≤ maxPartitioned
  · have hlength : s.length < 64 := Nat.lt_of_le_of_lt h (by decide)
    have hstop := toNat_bitWord hlength
    have hzero : (0 : UInt64).toNat = 0 := rfl
    rw [if_pos h, if_neg (Nat.not_lt.mpr h), Option.map_some, Partitions.sizeHint_eq,
      Partitions.take_eq (Nat.le_of_lt hlength)]
    · simp only [hstop, hzero, Nat.sub_zero, List.range_eq_range']
    · simp only [hzero, Nat.sub_zero, Nat.zero_add]
      exact Nat.le_refl _
    · simp only [hzero]
      exact Nat.zero_le _
  · rw [if_neg h, if_pos (Nat.lt_of_not_le h)]
    rfl

theorem Sequent.exists_partition {s : Sequent} {parts : List (Sequent × Sequent)}
    (h : s.partitions? = some parts) {lr : Sequent × Sequent} (hlr : lr ∈ parts) :
    ∃ k, lr = s.partition k := by
  rw [partitions?_eq] at h
  split at h
  · cases h
    obtain ⟨k, -, rfl⟩ := List.mem_map.mp hlr
    exact ⟨k, rfl⟩
  · cases h

/-! ## Weights -/

/-- Dealing loses no weight: the two parts together weigh what the list weighs. -/
theorem total_deal {α : Type} (w : α → Nat) (k : Nat) (as : List α) :
    total ((deal k as).1.map w) + total ((deal k as).2.map w) = total (as.map w) := by
  induction as generalizing k with
  | nil => rfl
  | cons a as ih =>
      have h := ih (k / 2)
      unfold deal
      by_cases hk : k % 2 = 0 <;> simp [hk] <;> omega

/-- The parts of a partition share the connectives of the sequent. -/
theorem Sequent.connectives_partition (s : Sequent) (k : Nat) :
    (s.partition k).1.connectives + (s.partition k).2.connectives = s.connectives := by
  obtain ⟨xs, ys⟩ := s
  have h1 := total_deal Formula.connectives k xs
  have h2 := total_deal Formula.connectives (k >>> xs.length) ys
  simp only [Sequent.partition, Sequent.connectives_mk]
  omega

end SequentCalculus
